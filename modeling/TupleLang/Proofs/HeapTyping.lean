import TupleLang.Proofs.Footprint
import TupleLang.Proofs.Handles
import TupleLang.Proofs.ScopeView

/-!
# Types of storage places

A value *suits* a type if it has the stored form that the type calls for (`Value.Suits`). A store is
*faithful* if the attributes of its tuples hold what their types say (`Store.Faithful`).

That alone is not kept by assignments, since cells that share a place see each other's writes. What
is kept is a typing of the places: every place that has a type holds a value that suits it, and
every attribute is in a place of its own type. New places get a type when they are made, and none is
ever changed. This is the regime `Store.typing`; building, copying and assigning keep it. A faithful
store with attributes in places of their own has such a typing (`Store.Faithful.exists_typed`).
-/

namespace TupleLang

/-! ## Values and types -/

namespace Native

variable {m n : Native} {name : String}

/-- A native type accepts its own name. -/
theorem accepts_typeName (n : Native) : n.accepts n.typeName = true := by
  simp [accepts]

/-- The logical types of a native type are those that the hints select. -/
theorem exists_hint_of_accepts (h : n.accepts name = true) :
    ∃ hint, n.hinted? hint = some name := by
  simp only [accepts, Bool.or_eq_true, Bool.and_eq_true, beq_iff_eq] at h
  rcases h with (rfl | ⟨rfl, rfl⟩) | ⟨rfl, rfl⟩
  · exact ⟨.default, n.hinted?_default⟩
  · exact ⟨.bits, rfl⟩
  · exact ⟨.sigil, rfl⟩

/-- A logical type is read with one native type only. -/
theorem eq_of_accepts (hm : m.accepts name = true) (hn : n.accepts name = true) : m = n := by
  obtain ⟨hint, hhint⟩ := exists_hint_of_accepts hn
  exact eq_of_hinted? hhint hm

/-- Neither the type of no value nor the wildcard is read with a native type. -/
theorem ne_of_accepts (h : n.accepts name = true) : name ≠ "void" ∧ name ≠ "any" := by
  constructor
  all_goals
    rintro rfl
    cases n <;> simp [accepts, typeName] at h

end Native

/-- The value has the form that the type calls for. The type of a native value calls for a value of
this native type, and void for no value; the type of a tuple calls for nothing. -/
structure Value.Suits (v : Value) (type : TypeDesc) : Prop where
  native : ∀ n : Native, type.leafName?.any n.accepts → ∃ u, v = n.wrap u
  void : type.isVoid → v = .void

namespace Value

variable {type : TypeDesc}

/-- A native value suits the logical types of its native type. -/
theorem suits_wrap {n : Native} (h : type.leafName?.any n.accepts = true) (u : n.Carrier) :
    (n.wrap u).Suits type := by
  cases type with
  | tree fields => cases h
  | leaf name =>
    refine ⟨fun m hm => ?_, fun hvoid => ?_⟩
    · change m.accepts name = true at hm
      obtain rfl := Native.eq_of_accepts hm h
      exact ⟨u, rfl⟩
    · obtain rfl : name = "void" := Option.some.inj (beq_iff_eq.mp hvoid)
      exact absurd rfl (Native.ne_of_accepts (n := n) h).1

/-- A native value suits each type that accepts it. -/
theorem suits_leaf {n : Native} {name : String} (h : n.accepts name = true) (u : n.Carrier) :
    (n.wrap u).Suits (.leaf name) := @suits_wrap (.leaf name) n h u

/-- A native value suits its own type. -/
theorem suits_native (n : Native) (u : n.Carrier) : (n.wrap u).Suits (.leaf n.typeName) :=
  suits_leaf n.accepts_typeName u

/-- The void value suits the void type. -/
theorem suits_void : Value.void.Suits .void where
  native _ hn := absurd rfl (Native.ne_of_accepts hn).1
  void _ := rfl

/-- Any tuple suits the type that one tuple suits: this is no scalar type. -/
theorem Suits.tuple {id : TupleId} (h : (Value.tuple id).Suits type) (k : TupleId) :
    (Value.tuple k).Suits type where
  native n hn := by
    obtain ⟨u, hu⟩ := h.native n hn
    cases n <;> cases hu
  void hvoid := nomatch h.void hvoid

/-- A value that is a tuple suits every type that is no scalar type. -/
theorem suits_tuple {id : TupleId} (hscalar : ∀ n : Native, type.leafName?.any n.accepts = false)
    (hvoid : type.isVoid = false) : (Value.tuple id).Suits type where
  native n hn := by
    rw [hscalar n] at hn
    cases hn
  void h := by
    rw [hvoid] at h
    cases h

/-- The types of the tuples of the language are no scalar types. -/
theorem suits_typeDesc {t : Tuple} (ht : t.kind.fixedPermissions?.isSome) (id : TupleId) :
    (Value.tuple id).Suits t.typeDesc := by
  cases hkind : t.kind with
  | custom tag =>
    rw [hkind] at ht
    cases ht
  | plain =>
    rw [show t.typeDesc = .tree _ by rw [Tuple.typeDesc, hkind]]
    exact suits_tuple (fun _ => rfl) rfl
  | dynamic =>
    rw [show t.typeDesc = .leaf "dynamic" by rw [Tuple.typeDesc, hkind]; rfl]
    exact suits_tuple (fun n => by cases n <;> decide) rfl
  | data =>
    rw [show t.typeDesc = .leaf "data" by rw [Tuple.typeDesc, hkind]; rfl]
    exact suits_tuple (fun n => by cases n <;> decide) rfl

end Value

/-! ## Errors -/

/-- What can go wrong while actions are applied to operands of the right types: an assignment is
refused, a tuple is gone or cannot be copied, or nesting is too deep. -/
def Error.OfEvaluation : Error → Prop
  | .incompatibleType .. | .accessDenied .. | .duplicateName _ | .notFound (.tuple _)
  | .depthExceeded .. => True
  | _ => False

/-- What can go wrong while building can go wrong in evaluation. -/
theorem Error.OfBuilding.ofEvaluation {e : Error} (h : e.OfBuilding) : e.OfEvaluation := by
  unfold OfBuilding at h
  split at h
  · trivial
  · trivial
  · trivial
  · trivial
  · cases h

namespace Cell

variable {h : Heap} {c : Cell} {v : Value}

/-- Writing what the type admits is refused to a locked cell only. -/
theorem set_cases {n : Native} (hn : c.admits n = true) (u : n.Carrier) :
    c.set h n u = .ok (h.put c.loc (n.wrap u)) ∨
      ∃ kind, c.set h n u = .error (.accessDenied .modify kind) := by
  unfold set checkWritable checkType
  rw [if_pos hn]
  cases c.lockedBy with
  | none => exact .inl rfl
  | some kind => exact .inr ⟨kind, rfl⟩

/-- Replacing type and value is refused to a locked cell only. -/
theorem replace_cases (type : TypeDesc) (v : Value) :
    c.replace h type v = .ok ({ c with type }, h.put c.loc v) ∨
      ∃ kind, c.replace h type v = .error (.accessDenied .modify kind) := by
  unfold replace checkWritable
  cases c.lockedBy with
  | none => exact .inl rfl
  | some kind => exact .inr ⟨kind, rfl⟩

/-- A refused write can go wrong in evaluation. -/
theorem ofEvaluation_of_checkWritable {e : Error} (h : c.checkWritable = .error e) :
    e.OfEvaluation := by
  unfold checkWritable at h
  split at h
  · cases h
    trivial
  · cases h

end Cell

/-! ## Typed places -/

/-- Types of storage places, as far as they are known. -/
abbrev PlaceTypes := Nat → Option TypeDesc

/-- The cell has the type of its place. -/
def Cell.Placed (w : PlaceTypes) (c : Cell) : Prop := w c.loc = some c.type

namespace Store

/-- Every place with a type holds a value that suits it, and every attribute has the type of its
place. Nothing was registered besides what the language brings along. -/
structure Typed (w : PlaceTypes) (s : Store) : Prop where
  places : ∀ loc type, w loc = some type → ∃ v, s.heap.values[loc]? = some v ∧ v.Suits type
  tuples : s.arena.Every fun t => t.Basic ∧ ∀ e ∈ t.entries, e.cell.Placed w

/-- Stores with typed places. A place keeps its type. -/
def typing : Regime Store where
  World := PlaceTypes
  Later v w := ∀ loc type, v loc = some type → w loc = some type
  refl _ _ _ h := h
  trans huv hvw loc type h := hvw loc type (huv loc type h)
  Holds := Typed

variable {w v : PlaceTypes} {s : Store} {c : Cell} {type : TypeDesc} {u : Value}

/-- Cells keep their places. -/
theorem placed_lasts (hlater : typing.Later v w) (hc : c.Placed v) : c.Placed w := hlater _ _ hc

namespace Typed

/-- A cell in its place stores what suits its type. -/
theorem stores (h : s.Typed w) (hc : c.Placed w) : ∃ v, c.Stores s.heap v ∧ v.Suits c.type :=
  h.places _ _ hc

/-- The value of a cell suits its type. -/
theorem suits (h : s.Typed w) (hc : c.Placed w) : (c.value s.heap).Suits c.type := by
  obtain ⟨v, hv, hsuits⟩ := h.stores hc
  rwa [hv.value_eq]

/-- What the type of a cell admits can be read. -/
theorem exists_read (h : s.Typed w) (hc : c.Placed w) {n : Native} (hn : c.admits n = true) :
    ∃ u, c.read s.heap n = .ok u := by
  have hreadable : c.Readable s.heap := Cell.readable_iff.mpr (h.suits hc).native
  exact (hreadable n hn).imp fun _ hu => hu.2

/-- A new place gets the type of the cell that is made. -/
theorem make (h : s.Typed w) (hu : u.Suits type) : ∃ w', typing.Later w w' ∧
    Typed w' { s with heap := (Cell.make s.heap type u).2 } ∧
      (Cell.make s.heap type u).1.Placed w' := by
  -- the world grows by the type of the new place
  have hlater : typing.Later w (Function.update w s.heap.values.size (some type)) := by
    intro loc type' hloc
    obtain ⟨v, hv, -⟩ := h.places loc type' hloc
    have hlt := (Array.getElem?_eq_some_iff.mp hv).1
    rwa [Function.update_of_ne hlt.ne]
  refine ⟨_, hlater, ⟨fun loc type' hloc => ?_, ?_⟩, Function.update_self ..⟩
  · by_cases hnew : loc = s.heap.values.size
    · subst hnew
      rw [Function.update_self] at hloc
      cases hloc
      exact ⟨u, Cell.stores_make s.heap type u, hu⟩
    · rw [Function.update_of_ne hnew] at hloc
      obtain ⟨v, hv, hsuits⟩ := h.places loc type' hloc
      exact ⟨v, Cell.grows_make s.heap type u loc v hv, hsuits⟩
  · exact h.tuples.mono fun t ht => ⟨ht.1, fun e he => placed_lasts hlater (ht.2 e he)⟩

/-- Writing what suits the type of a place, for all cells in it. -/
theorem put (h : s.Typed w) (hc : c.Placed w) (hu : u.Suits c.type) :
    Typed w { s with heap := s.heap.put c.loc u } where
  places loc type hloc := by
    obtain ⟨v, hv, hsuits⟩ := h.places loc type hloc
    by_cases hsame : loc = c.loc
    · subst hsame
      obtain rfl : type = c.type := Option.some.inj (hloc.symm.trans hc)
      have hlt := (Array.getElem?_eq_some_iff.mp hv).1
      exact ⟨u, by simp [Heap.put, hlt], hu⟩
    · refine ⟨v, ?_, hsuits⟩
      simpa [Heap.put, Array.getElem?_setIfInBounds_ne (Ne.symm hsame)] using hv
  tuples := h.tuples

/-- The arena may be changed if the attributes stay in their places. -/
theorem of_arena (h : s.Typed w) {a : Arena}
    (ha : a.Every fun t => t.Basic ∧ ∀ e ∈ t.entries, e.cell.Placed w) :
    Typed w { s with arena := a } :=
  ⟨h.places, ha⟩

/-- A new scope changes no attribute. -/
theorem adopt (h : s.Typed w) (parent child : TupleId) : (s.adopt parent child).Typed w where
  places := by
    rw [heap_adopt]
    exact h.places
  tuples := every_adopt (fun _ parent ht =>
    ⟨Tuple.ofRegistry_basic.sturdy.adopt parent ht.1, ht.2⟩) h.tuples parent child

/-- A tuple that goes takes its attributes with it. -/
theorem destroy (h : s.Typed w) (id : TupleId) : (s.destroy id).Typed w where
  places := by
    rw [Store.destroy, (sameButArena_destroyWithin _ s id).heap]
    exact h.places
  tuples := every_destroy (fun _ _ =>
    ⟨Tuple.ofRegistry_basic.empty rfl rfl rfl, fun _ he => nomatch he⟩) h.tuples

end Typed

/-! ## New cells -/

/-- A new cell is in its place if the value suits the type. -/
theorem keeps_newCell_typing (hu : u.Suits type) {E : Error → Prop} :
    typing.Keeps w (StoreM.newCell type u) (fun v c => c.Placed v ∧ c.type = type) E := by
  intro v _ s hs
  obtain ⟨v', hlater, hmade, hplaced⟩ := Typed.make hs hu
  exact .onHeap ⟨v', hlater, hmade, hplaced, rfl⟩

/-- So is a new native cell. -/
theorem keeps_newNative_typing (n : Native) (x : n.Carrier) {E : Error → Prop} :
    typing.Keeps w (StoreM.newNative n x) (fun v c => c.Placed v ∧ c.type = .leaf n.typeName) E :=
  keeps_newCell_typing (Value.suits_native n x)

/-- So is a new void cell. -/
theorem keeps_newVoid_typing {E : Error → Prop} :
    typing.Keeps w StoreM.newVoid (fun v c => c.Placed v ∧ c.type = .void) E :=
  keeps_newCell_typing Value.suits_void

/-- Reading what the type of a cell admits. -/
theorem keeps_read_typing (hc : c.Placed w) {n : Native} (hn : c.admits n = true)
    {E : Error → Prop} :
    typing.Keeps w (StoreM.read c n) (fun _ _ => True) E := by
  intro v hv s hs
  obtain ⟨x, hx⟩ := Typed.exists_read hs (placed_lasts hv hc) hn
  have hrun : StoreM.read c n s = .ok x s := StoreM.read_eq_ok.mpr ⟨hx, rfl⟩
  rw [Regime.Leads, hrun]
  exact ⟨v, typing.refl v, hs, trivial⟩

/-- Writing what the type of a cell admits. -/
theorem keeps_write_typing (hc : c.Placed w) {n : Native} (hn : c.admits n = true) (x : n.Carrier) :
    typing.Keeps w (StoreM.write c n x) (fun _ _ => True) Error.OfEvaluation := by
  intro v hv s hs
  refine .tryHeap hs (fun _ h hrun => ?_) fun e hrun => ?_
  all_goals
    rcases Cell.set_cases (h := s.heap) hn x with hset | ⟨kind, hset⟩ <;>
      rw [hset] at hrun <;> cases hrun
  · exact ⟨v, typing.refl v, Typed.put hs (placed_lasts hv hc) (Value.suits_wrap hn x), trivial⟩
  · trivial

/-! ## Copies -/

/-- Tuples are built and copied from cells that have the types of their places. -/
def typingCopying : TupleLang.Copying typing where
  CellOk := fun w c => c.Placed w
  Open _ _ := True
  cell_lasts := placed_lasts
  open_lasts _ _ := trivial
  owned _ _ _ := trivial
  insert := by
    intro w s id t t' name cell pos hs _ hcell ht hinsert
    obtain ⟨hbasic, hentries⟩ := Arena.Every.of_get? (Typed.tuples hs) ht
    refine ⟨w, typing.refl w, Typed.of_arena hs (hs.tuples.put ⟨?_, ?_⟩)⟩
    · exact Tuple.ofRegistry_basic.sturdy.insert hbasic hinsert
    · rw [Tuple.insertInitial_eq_ok hinsert]
      exact List.forall_mem_append.mpr ⟨hentries, by simpa using hcell⟩
  adopt _ parent child _ _ := fun v _ _ hs => ⟨v, typing.refl v, Typed.adopt hs parent child⟩
  destroy _ id _ := fun v _ _ hs => ⟨v, typing.refl v, Typed.destroy hs id⟩
  SourceOk := fun w c => c.Placed w
  source_lasts := placed_lasts
  entries hs ht e he := (Arena.Every.of_get? (Typed.tuples hs) ht).2 e he
  create _ kind permissions parent := fun v _ _ hs => .change ⟨v, typing.refl v,
    Typed.of_arena hs (hs.tuples.alloc
      ⟨Tuple.ofRegistry_basic.empty rfl rfl rfl, fun _ he => nomatch he⟩), trivial⟩
  reborrow := by
    intro w c hc v hv s hs
    refine .onHeap ?_
    unfold Cell.reborrow
    split
    · obtain ⟨v', hlater, hmade, hplaced⟩ := Typed.make hs (Typed.suits hs (placed_lasts hv hc))
      exact ⟨v', hlater, hmade, hplaced⟩
    · exact ⟨v, typing.refl v, hs, placed_lasts hv hc⟩
  shared hc _ := hc
  scalar {w s c} hs hc _ :=
    (keeps_newCell_typing (w := w) (E := Error.OfBuilding) (Typed.suits hs hc)).weaken
      (fun _ _ _ h => h.1) w (typing.refl w) s hs
  tuple := by
    intro v w s c id k hs hc hid _ _
    -- the cell holds a tuple, so that its type is none that another tuple would not suit
    obtain ⟨u, hu, hsuits⟩ := Typed.stores hs hc
    obtain rfl : u = .tuple id := by
      rw [hu.tupleId?_eq] at hid
      cases u <;> cases hid
      rfl
    exact (keeps_newCell_typing (hsuits.tuple k)).weaken fun _ _ _ h => h.1

/-- Replacing type and value of a cell by those of another cell of its type. -/
theorem keeps_putInto_typing {x y : Cell} (hx : x.Placed w) (hy : y.Placed w)
    (htype : y.type = x.type) (previous : Option TupleId) :
    typing.Keeps w (Body.putInto x y previous) (fun v c => c.Placed v ∧ c.type = x.type)
      Error.OfEvaluation := by
  refine .bind (Q := fun v c => c.Placed v ∧ c.type = x.type) ?_ fun c v hv hc => ?_
  · intro v hv s hs
    refine .tryHeap hs (fun c h hrun => ?_) fun e hrun => ?_
    all_goals
      rcases Cell.replace_cases (h := s.heap) (c := x) y.type (y.value s.heap) with
        hreplace | ⟨kind, hreplace⟩ <;>
      rw [Cell.cloneInto, hreplace] at hrun <;> cases hrun
    · -- the value fits the target, for both have one type
      have hsuits := Typed.suits hs (placed_lasts hv hy)
      rw [htype] at hsuits
      have hx := placed_lasts hv hx
      exact ⟨v, typing.refl v, Typed.put hs hx hsuits,
        by simpa [htype, Cell.Placed] using hx, htype⟩
    · trivial
  · have hdone : typing.Keeps v (pure c : StoreM Cell) (fun v c => c.Placed v ∧ c.type = x.type)
        Error.OfEvaluation := .pure fun u hu => ⟨placed_lasts hu hc.1, hc.2⟩
    cases previous with
    | none => exact hdone
    | some old =>
      refine .get_bind fun u hu _ _ => .ite (fun _ => ?_) fun _ => hdone.of_later hu
      refine .andThen (.modify fun v _ _ hs => ⟨v, typing.refl v, Typed.destroy hs old⟩)
        fun _ _ hlater => hdone.of_later (typing.trans hu hlater)

/-- Assigning gives the target, which keeps its type. -/
theorem keeps_assignCell_typing {x y : Cell} (hx : x.Placed w) (hy : y.Placed w) :
    typing.Keeps w (Body.assignCell x y) (fun v c => c.Placed v ∧ c.type = x.type)
      Error.OfEvaluation := by
  rw [Body.assignCell_eq]
  refine .andThen (.ofExcept (fun _ _ _ _ => trivial) fun _ => Cell.ofEvaluation_of_checkWritable)
    fun _ v hv => ?_
  refine .ite (fun _ => .throw trivial) fun hsame => ?_
  refine .get_bind fun u hu _ _ => .get_bind fun z hz _ _ => ?_
  have htype : y.type = x.type := (Decidable.not_not.mp hsame).symm
  have hlater := typing.trans hv (typing.trans hu hz)
  -- what is put into the place is the value itself or a copy, and of its type in either case
  have hput : ∀ previous (c : Cell) z', typing.Later z z' → c.Placed z' ∧ c.type = y.type →
      typing.Keeps z' (Body.putInto x c previous) (fun v c => c.Placed v ∧ c.type = x.type)
        Error.OfEvaluation := fun previous c z' hz' hc =>
    keeps_putInto_typing (placed_lasts (typing.trans hlater hz') hx) hc.1 (hc.2.trans htype)
      previous
  refine .ite (fun _ => .bind (Q := fun v c => c.Placed v ∧ c.type = y.type) ?_ (hput _)) fun _ =>
    .bind (Q := fun v c => c.Placed v ∧ c.type = y.type) (.pure fun u hu => ?_) (hput _)
  · exact (typingCopying.duplicate (placed_lasts hlater hy)).mono (fun _ _ _ h => ⟨h.1, h.2.1⟩)
      fun _ he => he.ofEvaluation
  · exact ⟨placed_lasts (typing.trans hlater hu) hy, rfl⟩

/-- A leaf yields a cell of its own type. -/
theorem keeps_yieldCell_typing (hc : c.Placed w) {E : Error → Prop} :
    typing.Keeps w (Node.yieldCell c) (fun v c' => c'.Placed v ∧ c'.type = c.type) E := by
  refine .yieldCell (fun v hv => ⟨placed_lasts hv hc, rfl⟩) fun _ v hv s hs _ => ?_
  exact keeps_newCell_typing (Typed.suits hs (placed_lasts hv hc)) v (typing.refl v) s hs

/-! ## Faithful stores -/

/-- Attributes hold what their types say. -/
def Faithful (s : Store) : Prop :=
  ∀ id t, s.tuple? id = some t → ∀ e ∈ t.entries, (e.cell.value s.heap).Suits e.cell.type

/-- Where cells are in their places they store what their types say. -/
theorem Typed.faithful (h : s.Typed w) : s.Faithful := fun _ _ ht e he =>
  h.suits ((h.tuples.of_get? ht).2 e he)

/-- Attributes in places of their own give types to these places. -/
theorem Faithful.exists_typed (h : s.Faithful) (hbasic : s.Basic) (hapart : s.Apart) :
    ∃ w, s.Typed w := by
  classical
  let Occupies (loc : Nat) (type : TypeDesc) : Prop := ∃ id t, s.tuple? id = some t ∧
    ∃ e ∈ t.entries, e.cell.loc = loc ∧ e.cell.type = type
  -- no two attributes share a place, so each place has one type
  have hunique : ∀ loc type type', Occupies loc type → Occupies loc type' → type = type' := by
    rintro loc _ _ ⟨x, t, ht, e, he, hloc, rfl⟩ ⟨y, u, hu, f, hf, hloc', rfl⟩
    obtain ⟨i, hi⟩ := List.mem_iff_getElem?.mp he
    obtain ⟨j, hj⟩ := List.mem_iff_getElem?.mp hf
    obtain ⟨rfl, rfl⟩ := hapart.apart x y t u i j e f ht hi hu hj (hloc.trans hloc'.symm)
    cases ht.symm.trans hu
    cases hi.symm.trans hj
    rfl
  let w : PlaceTypes := fun loc => if h : ∃ type, Occupies loc type then some h.choose else none
  have hw : ∀ loc type, w loc = some type ↔ Occupies loc type := by
    intro loc type
    by_cases hloc : ∃ type, Occupies loc type
    · simp only [w, dif_pos hloc, Option.some.injEq]
      exact ⟨fun heq => heq ▸ hloc.choose_spec, hunique _ _ _ hloc.choose_spec⟩
    · simp only [w, dif_neg hloc]
      exact ⟨nofun, fun hocc => absurd ⟨type, hocc⟩ hloc⟩
  refine ⟨w, ⟨fun loc type hloc => ?_, fun i n t ht => ⟨hbasic.tuples i n t ht, fun e he => ?_⟩⟩⟩
  · obtain ⟨id, t, ht, e, he, rfl, rfl⟩ := (hw loc type).mp hloc
    have hlt := hapart.bounded id t ht e he
    have hsuits := h id t ht e he
    rw [Cell.value, Heap.get, Array.getElem?_eq_getElem hlt, Option.getD_some] at hsuits
    exact ⟨_, Array.getElem?_eq_getElem hlt, hsuits⟩
  · have hlive : s.tuple? ⟨i, UInt32.ofNat n⟩ = some t := Arena.get?_eq_some_iff.mpr ⟨n, ht, rfl⟩
    exact (hw _ _).mpr ⟨_, t, hlive, e, he, rfl, rfl⟩

end Store

end TupleLang
