import TupleLang.Proofs.Footprint
import TupleLang.Proofs.Scoping

/-!
# Data tuples hold data

A data tuple refuses an attribute whose type is not one of data when it is appended. Nothing that a
host asks for brings such a type in later, parsing and evaluation included, except for one thing:
the type of an attribute can be replaced in place, and nothing is checked then. So data tuples hold
nothing but data as long as a host minds this itself (`data_tuples_hold_data`), and otherwise they
do not (`replaced_attribute_is_no_data`).

Whatever is not about data is said of every sturdy property of tuples.
-/

namespace TupleLang

/-- The store that a body of the host leaves behind, whether it fails or not. -/
def Host.after (host : Host) (label : String) (a : Activation) : Store :=
  match host.run label a with
  | .ok _ a' => a'.store
  | .error _ a' => a'.store

/-- Any tree is one, if nothing is asked of its leaves and operators. -/
theorem Node.forms_trivial : (node : Node) → node.Forms (fun _ => True) fun _ => True
  | .value _ _ => .value trivial
  | .apply _ _ => .apply trivial fun n _ => n.forms_trivial
termination_by node => sizeOf node
decreasing_by
  simp only [Node.apply.sizeOf_spec]
  have := List.sizeOf_lt_of_mem ‹_›
  omega

namespace Store

/-! ## Sturdy properties -/

section Sturdy

variable {P : Tuple → Prop} {w : Unit} {s : Store}

/-- Writing to the heap changes no tuple. -/
theorem keeps_tryHeap_everywhere {α : Type} (f : Heap → Except Error (α × Heap)) :
    (everywhere P).Keeps w (StoreM.tryHeap f) (fun _ _ => True) fun _ => True :=
  fun v _ _ hs => .tryHeap hs (fun _ _ _ => ⟨v, trivial, hs, trivial⟩) fun _ _ => trivial

/-- Making tuples keeps what holds of all tuples. -/
theorem keeps_createFrom_everywhere (hP : Tuple.Sturdy P) (kind : TupleKind)
    (parent : Option TupleId) (entries : List (Option String × Cell)) :
    (everywhere P).Keeps w (StoreM.createFrom kind parent entries) (fun _ _ => True)
      fun _ => True :=
  ((everywhereCopying hP).createFrom (keeps_createWith_everywhere hP kind {} parent)
    fun _ _ => trivial).mono (fun _ _ _ _ => trivial) fun _ _ => trivial

/-- Copying cells keeps what holds of all tuples. -/
theorem keeps_duplicate_everywhere (hP : Tuple.Sturdy P) (cell : Cell) :
    (everywhere P).Keeps w (StoreM.duplicate cell) (fun _ _ => True) fun _ => True :=
  ((everywhereCopying hP).duplicate trivial).mono (fun _ _ _ _ => trivial) fun _ _ => trivial

/-- Giving up nodes keeps what holds of all tuples. -/
theorem moves_releaseNodes_everywhere (hP : Tuple.Sturdy P) (nodes : List Node) :
    (everywhere P).Moves w (·.releaseNodes nodes) :=
  (everywhereCopying hP).releaseAll fun _ _ => trivial

/-- A new tuple and a cell that holds it. -/
theorem keeps_built_everywhere (hP : Tuple.Sturdy P) (kind : TupleKind) (parent : Option TupleId)
    (entries : List (Option String × Cell)) :
    (everywhere P).Keeps w (do
      let id ← StoreM.createFrom kind parent entries
      let type ← StoreM.ofExcept ((← get).typeOf id)
      StoreM.newCell type (.tuple id)) (fun _ _ => True) fun _ => True := by
  refine .andThen (keeps_createFrom_everywhere hP kind parent entries) fun id _ _ => ?_
  refine .get_bind fun _ _ s' _ => .andThen ?_ fun type _ _ => keeps_onHeap_everywhere _
  exact .ofExcept (fun _ _ _ _ => trivial) fun _ _ => trivial

/-! ### Parsing -/

/-- Parsing builds tuples and gives them up. -/
def everywhereParsing (hP : Tuple.Sturdy P) (scope : TupleId) : Parsing (everywhere P) scope where
  CellOk _ _ := True
  NodeOk _ _ := True
  cell_lasts _ _ := trivial
  node_lasts _ _ := trivial
  scalar _ _ _ _ _ := keeps_onHeap_everywhere _
  native _ _ _ := fun v _ _ hs => .onHeap ⟨v, trivial, hs, trivial, rfl⟩
  build _ kind entries _ _ := (keeps_built_everywhere hP kind (some scope) entries).parser
  giveUp _ _ _ := (everywhereCopying hP).releaseAll fun _ _ => trivial
  giveUpNodes _ nodes _ := moves_releaseNodes_everywhere hP nodes
  literal _ _ _ := trivial
  variableCell _ _ _ _ _ _ := trivial
  bound _ _ _ _ _ _ _ _ _ _ _ := trivial
  compared _ _ _ _ _ _ _ _ _ _ _ _ _ _ _ _ _ _ _ _ := trivial

/-- Parsing keeps what holds of all tuples. -/
theorem every_parse (hP : Tuple.Sturdy P) (hs : s.arena.Every P) (scope : TupleId)
    (cursor : Cursor) : (Expression.parse s scope cursor).store.arena.Every P := by
  obtain ⟨_, -, hparsed, -⟩ := (everywhereParsing hP scope).parseStatements
    (cursor.remaining + 1) (s := ⟨s, cursor⟩) (w := ()) hs
  rw [Expression.parse_eq, Expression.parseDirectly]
  cases s.tuple scope with
  | error e => exact hs
  | ok t =>
    dsimp only
    split
    · exact hparsed
    · -- the statements that were parsed before a failure are given up
      obtain ⟨_, -, hreleased⟩ := moves_releaseNodes_everywhere (w := ()) hP _ () trivial _ hparsed
      exact hreleased

/-- Reading a value keeps what holds of all tuples. -/
theorem every_parseValue (hP : Tuple.Sturdy P) (hs : s.arena.Every P) (scope : TupleId)
    (cursor : Cursor) : (parseValue s scope cursor).store.arena.Every P := by
  have hvalue : (everywhere P).Parses () (ValueReader.read scope s.settings.maxDepth)
      fun _ _ => True :=
    (everywhereParsing hP scope).readValue
      (fun kind hkind => (everywhereParsing hP scope).readTuple s.settings.maxDepth kind hkind) ()
  have hread := hvalue () trivial ⟨s, cursor⟩ hs
  unfold Regime.Leads at hread
  rw [parseValue_eq]
  -- both outcomes leave a store, and the invariant holds of either
  split at hread
  · rename_i hrun
    rw [hrun]
    obtain ⟨_, -, hread, -⟩ := hread
    exact hread
  · rename_i hrun
    rw [hrun]
    obtain ⟨-, _, -, hread⟩ := hread
    exact hread

/-! ### Evaluation -/

/-- Assigning writes to a place, copies what is only referred to and gives up what was there. -/
theorem keeps_assignCell_everywhere (hP : Tuple.Sturdy P) (target value : Cell) :
    (everywhere P).Keeps w (Body.assignCell target value) (fun _ _ => True) fun _ => True := by
  -- the write itself, once the value is owned
  have hput : ∀ (value : Cell) (previous : Option TupleId),
      (everywhere P).Keeps () (Body.putInto target value previous) (fun _ _ => True)
        fun _ => True := by
    intro value previous
    refine .andThen (keeps_tryHeap_everywhere _) fun target' _ _ => ?_
    -- the tuple that is replaced, if there was one, is destroyed
    cases previous with
    | none => exact .pure fun _ _ => trivial
    | some old =>
      refine .get_bind fun _ _ s' _ => .ite (fun _ => ?_) fun _ => .pure fun _ _ => trivial
      exact .andThen (.modify ((everywhereCopying hP).destroy () trivial)) fun _ _ _ =>
        .pure fun _ _ => trivial
  rw [Body.assignCell_eq]
  refine .andThen (.ofExcept (fun _ _ _ _ => trivial) fun _ _ => trivial) fun _ _ _ => ?_
  refine .ite (fun _ => .throw trivial) fun _ => ?_
  refine .get_bind fun _ _ _ _ => .get_bind fun _ _ _ _ => ?_
  refine .ite (fun _ => .andThen (keeps_duplicate_everywhere hP value) fun _ _ _ => hput _ _)
    fun _ => .andThen (.pure fun _ _ => trivial) fun _ _ _ => hput _ _

/-- Whatever a body of the language does, it only builds tuples, copies them and gives them up. -/
def everywhereActing (hP : Tuple.Sturdy P) : Acting (everywhere P) where
  toCopying := everywhereCopying hP
  Apt _ := True
  ValueOk _ _ := True
  value_lasts _ _ := trivial
  source _ := trivial
  own _ _ := trivial
  void _ := keeps_onHeap_everywhere _
  native _ _ _ := keeps_onHeap_everywhere _
  unary _ _ := keeps_onHeap_everywhere _
  binary _ _ := keeps_onHeap_everywhere _
  compound _ _ _ := keeps_tryHeap_everywhere _
  assign _ _ _ := keeps_assignCell_everywhere hP _ _
  construct _ _ _ := keeps_onHeap_everywhere _

/-- Applying an action keeps what the host keeps in the bodies that it supplies. -/
theorem keeps_apply_everywhere (hP : Tuple.Sturdy P) {host : Host}
    (hhost : ∀ label a, a.store.arena.Every P → (host.after label a).arena.Every P)
    (action : Action) (name : String) (operands : List Cell) :
    (everywhere P).Keeps w (action.apply host name operands) (fun _ _ => True) fun _ => True := by
  by_cases hbody : ∃ label, action.body = .host label
  · obtain ⟨label, hbody⟩ := hbody
    intro v _ s hs
    have hrun := hhost label ⟨s, name, operands.reverse⟩ hs
    unfold Host.after at hrun
    simp only [Regime.Leads, Action.apply, Action.call, hbody, Body.run, bind, EStateM.bind]
    cases hres : host.run label ⟨s, name, operands.reverse⟩ with
    | error e a =>
      rw [hres] at hrun
      exact ⟨trivial, v, trivial, hrun⟩
    | ok signal a =>
      rw [hres] at hrun
      -- what is left on the stack is the result, or else a new cell is
      obtain ⟨store, stackName, cells⟩ := a
      cases cells with
      | nil => exact ⟨v, trivial, hrun, trivial⟩
      | cons cell cells => exact ⟨v, trivial, hrun, trivial⟩
  · exact (everywhereActing hP).apply trivial (fun label h => hbody ⟨label, h⟩) host name
      fun _ _ => trivial

/-- Evaluation hands any cells on. -/
def everywhereEvaluating (hP : Tuple.Sturdy P) {host : Host}
    (hhost : ∀ label a, a.store.arena.Every P → (host.after label a).arena.Every P) :
    Evaluating (everywhere P) host where
  LeafOk _ _ := True
  ValueOk _ _ := True
  Bound _ := True
  leaf_lasts _ _ := trivial
  value_lasts _ _ := trivial
  yield _ := .yieldCell (fun _ _ => trivial) fun _ v _ _ hs _ => .onHeap ⟨v, trivial, hs, trivial⟩
  void _ := keeps_onHeap_everywhere _
  apply _ _ := keeps_apply_everywhere hP hhost _ _ _

/-- Evaluation keeps what holds of all tuples if the host's bodies do. -/
theorem every_evaluateRoots (hP : Tuple.Sturdy P) {host : Host}
    (hhost : ∀ label a, a.store.arena.Every P → (host.after label a).arena.Every P)
    (hs : s.arena.Every P) (roots : List Node) :
    ((Expression.evaluateRoots host roots).after s).arena.Every P :=
  every_after ((everywhereEvaluating hP hhost).evaluateRoots fun n _ => n.forms_trivial) hs

end Sturdy

end Store

/-! ## Data -/

namespace Tuple

/-- A data tuple has no attributes but those of data types. -/
def DataOnly (t : Tuple) : Prop := t.kind = .data → ∀ e ∈ t.entries, e.cell.type.isData = true

variable {t t' : Tuple} {cell : Cell}

/-- Only the kind and the attributes matter, and fewer attributes are fine. -/
theorem DataOnly.of_subset (h : t.DataOnly) (hkind : t'.kind = t.kind)
    (hentries : t'.entries ⊆ t.entries) : t'.DataOnly :=
  fun hdata e he => h (hkind ▸ hdata) e (hentries he)

/-- A data tuple takes only data when an attribute is appended. -/
theorem isData_of_insertInitial {name : Option String} {pos : Nat}
    (h : t.insertInitial name cell = .ok (pos, t')) (hdata : t.kind = .data) :
    cell.type.isData = true := by
  refine Bool.eq_true_of_not_eq_false fun hno => ?_
  have hrefused : (t.kind == .data && !cell.type.isData) = true := by simp [hdata, hno]
  -- a name that is taken is refused first
  unfold insertInitial at h
  simp only [hrefused, if_true] at h
  cases name with
  | none => cases h
  | some n =>
    dsimp only at h
    split at h
    · cases h
    · cases h

/-- Holding nothing but data is kept by whatever builds and empties tuples. -/
theorem sturdy_dataOnly : Sturdy DataOnly where
  empty hentries _ _ _ := by simp [DataOnly, hentries]
  insert := by
    intro t t' name cell pos ht hinsert hdata e he
    rw [insertInitial_eq_ok hinsert] at hdata he
    rcases List.mem_append.mp he with he | he
    · exact ht hdata e he
    · rw [List.mem_singleton.mp he]
      exact isData_of_insertInitial hinsert hdata
  take := by
    intro t t' key cell ht htake
    obtain ⟨pos, htake⟩ := take_eq_ok htake
    rw [htake]
    exact ht.of_subset rfl List.eraseIdx_subset
  adopt _ ht := ht

/-- The type of an attribute is replaced by one that the kind of the tuple takes. -/
theorem DataOnly.setCell (h : t.DataOnly) (pos : Nat)
    (hcell : t.kind = .data → cell.type.isData = true) : (t.setCell pos cell).DataOnly := by
  intro hdata e he
  obtain ⟨i, hi⟩ := List.mem_iff_getElem?.mp he
  rw [Tuple.setCell, List.getElem?_modify] at hi
  obtain ⟨old, hold, rfl⟩ := Option.map_eq_some_iff.mp hi
  split
  · exact hcell hdata
  · exact h hdata old (List.mem_of_getElem? hold)

/-- A cell that is to be changed in place is the cell of an attribute. -/
theorem mem_of_cellForUpdate {key : Key} {pos : Nat} (h : t.cellForUpdate key = .ok (pos, cell)) :
    ∃ e ∈ t.entries, e.cell = cell := by
  simp only [cellForUpdate, require, bind, Except.bind] at h
  split at h
  · cases h
  split at h
  · cases h
  split at h
  · rename_i hcell
    cases h
    obtain ⟨e, he, rfl⟩ := Option.map_eq_some_iff.mp hcell
    exact ⟨e, List.mem_of_getElem? he, rfl⟩
  · cases h

end Tuple

/-! ## Requests of a host -/

/-- What a host asks of a store. Cells are whatever handles the host has come by. -/
inductive Request where
  | create (kind : TupleKind) (permissions : Permissions) (parent : Option TupleId)
  | createFrom (kind : TupleKind) (parent : Option TupleId) (entries : List (Option String × Cell))
  | add (id : TupleId) (name : Option String) (cell : Cell)
  | addTuple (id : TupleId) (name : Option String) (kind : TupleKind)
  | remove (id : TupleId) (key : Key)
  | clear (id : TupleId)
  | destroy (id : TupleId)
  | duplicate (cell : Cell)
  | release (cell : Cell)
  | releaseNodes (nodes : List Node)
  /-- Make cells, and write through handles. -/
  | onHeap (f : Heap → Except Error (Unit × Heap))
  | setAt (id : TupleId) (key : Key) (n : Native) (v : n.Carrier)
  | borrowAt (id : TupleId) (key : Key)
  | replaceAt (id : TupleId) (key : Key) (type : TypeDesc) (value : Value)
  /-- Assign the value and the type of a cell to an attribute. -/
  | cloneAt (id : TupleId) (key : Key) (source : Cell)
  | registerType (id : TupleId) (name : String) (type : TypeDesc)
  | registerAction (id : TupleId) (action : Action)
  | configure (settings : Settings) (forms : TextForms)
  | parse (scope : TupleId) (cursor : Cursor)
  | parseValue (scope : TupleId) (cursor : Cursor)

namespace Request

/-- Do what a host asks for. -/
def perform : Request → StoreM Unit
  | create kind permissions parent => do
    let _ ← StoreM.change (·.createWith kind permissions parent)
  | createFrom kind parent entries => do let _ ← StoreM.createFrom kind parent entries
  | add id name cell => do let _ ← StoreM.add id name cell
  | addTuple id name kind => do let _ ← StoreM.addTuple id name kind
  | remove id key => StoreM.remove id key
  | clear id => StoreM.clear id
  | destroy id => modify (·.destroy id)
  | duplicate cell => do let _ ← StoreM.duplicate cell
  | release cell => modify (·.release cell)
  | releaseNodes nodes => modify (·.releaseNodes nodes)
  | onHeap f => StoreM.tryHeap f
  | setAt id key n v => StoreM.setAt id key n v
  | borrowAt id key => do let _ ← StoreM.borrowAt id key
  | replaceAt id key type value => StoreM.replaceAt id key type value
  | cloneAt id key source => StoreM.updateCell id key fun h c => return ((), ← source.cloneInto h c)
  | registerType id name type => StoreM.registerType id name type
  | registerAction id action => StoreM.registerAction id action
  | configure settings forms => modify ({ · with settings, forms })
  | parse scope cursor => modify fun s => (Expression.parse s scope cursor).store
  | parseValue scope cursor => modify fun s => (TupleLang.parseValue s scope cursor).store

/-- The host does not replace the type of an attribute of a data tuple by one that is not of data.
-/
def MindsData (s : Store) : Request → Prop
  | replaceAt id _ type _ => ∀ t, s.tuple? id = some t → t.kind = .data → type.isData = true
  | cloneAt id _ source => ∀ t, s.tuple? id = some t → t.kind = .data → source.type.isData = true
  | _ => True

end Request

namespace Store

variable {s s' : Store}

/-- A host leads a store on, by requests, by evaluating expressions and by applying actions. The
bodies that it supplies are run in between, and do the same in their turn. -/
inductive Serves : Store → Store → Prop
  | refl (s : Store) : Serves s s
  | request {s s' : Store} (r : Request) : Serves s s' → r.MindsData s' →
      Serves s (r.perform.after s')
  | evaluate {s s' : Store} {host : Host} (roots : List Node) : Serves s s' →
      (∀ label a, Serves a.store (host.after label a)) →
      Serves s ((Expression.evaluateRoots host roots).after s')
  | apply {s s' : Store} {host : Host} (action : Action) (name : String) (operands : List Cell) :
      Serves s s' → (∀ label a, Serves a.store (host.after label a)) →
      Serves s ((action.apply host name operands).after s')

/-- Changing the cell of an attribute, if the tuple keeps the property with the new cell. -/
theorem leads_updateCell_everywhere {P : Tuple → Prop} {α : Type} {id : TupleId} {key : Key}
    {f : Heap → Cell → Except Error (α × Cell × Heap)} (hs : s.arena.Every P)
    (hf : ∀ t pos c h a c' h', s.tuple? id = some t → P t → t.cellForUpdate key = .ok (pos, c) →
      f h c = .ok (a, c', h') → P (t.setCell pos c')) :
    (everywhere P).Leads () s (StoreM.updateCell id key f) (fun _ _ => True) fun _ => True := by
  refine .bind (Q := fun _ t => s.tuple? id = some t ∧ P t) ?_ fun t v _ ht s₁ hs₁ => ?_
  · simp only [Regime.Leads, StoreM.tuple, tuple, bind, EStateM.bind, get, getThe, MonadStateOf.get,
      EStateM.get]
    cases hlive : s.tuple? id with
    | none => exact ⟨trivial, (), trivial, hs⟩
    | some t => exact ⟨(), trivial, hs, rfl, hs.of_get? hlive⟩
  · have hcell : (everywhere P).Keeps v (StoreM.ofExcept (t.cellForUpdate key))
        (fun _ r => t.cellForUpdate key = .ok r) fun _ => True :=
      .ofExcept (fun _ hr _ _ => hr) fun _ _ => trivial
    refine Regime.Keeps.bind hcell (fun r v' _ hr => ?_) v trivial s₁ hs₁
    -- the heap is changed first, and nothing is if that is refused
    refine .bind (Q := fun _ x => P (t.setCell r.1 x.2)) (fun u _ s₂ hs₂ => ?_) fun x u _ hx => ?_
    · refine .tryHeap hs₂ (fun x h hrun => ⟨u, trivial, hs₂, ?_⟩) fun _ _ => trivial
      simp only [bind, Except.bind, pure, Except.pure] at hrun
      split at hrun
      · cases hrun
      · rename_i hok
        cases hrun
        exact hf t r.1 r.2 s₂.heap _ _ _ ht.1 ht.2 hr hok
    · exact .andThen (.modify (moves_everywhere fun _ hs => hs.put hx)) fun _ _ _ =>
        .pure fun _ _ => trivial

/-- Writing to an attribute, if its type stays as it is or becomes one that a data tuple takes. -/
theorem every_updateCell {α : Type} {id : TupleId} {key : Key}
    {f : Heap → Cell → Except Error (α × Cell × Heap)} (hs : s.arena.Every Tuple.DataOnly)
    (hf : ∀ t c h a c' h', s.tuple? id = some t → f h c = .ok (a, c', h') → t.kind = .data →
      c'.type = c.type ∨ c'.type.isData = true) :
    ((StoreM.updateCell id key f).after s).arena.Every Tuple.DataOnly := by
  have hleads :
    (everywhere Tuple.DataOnly).Leads () s (StoreM.updateCell id key f) (fun _ _ => True)
      fun _ => True := by
    refine leads_updateCell_everywhere hs fun t pos c h a c' h' hlive ht hcell hok => ?_
    refine ht.setCell pos fun hdata => ?_
    rcases hf t c h a c' h' hlive hok hdata with hsame | hnew
    · obtain ⟨e, he, rfl⟩ := Tuple.mem_of_cellForUpdate hcell
      rw [hsame]
      exact ht hdata e he
    · exact hnew
  obtain ⟨_, -, hafter⟩ := hleads.after
  exact hafter

/-- The result of a program does not matter to the store that it leaves behind. -/
theorem after_discard {α : Type} (m : StoreM α) (s : Store) :
    (do let _ ← m : StoreM Unit).after s = m.after s := by
  simp only [StoreM.after, bind, EStateM.bind]
  cases m s with
  | ok a s' => rfl
  | error e s' => rfl

/-- No request that minds data brings anything else into a data tuple. -/
theorem every_perform (hs : s.arena.Every Tuple.DataOnly) {r : Request} (hr : r.MindsData s) :
    (r.perform.after s).arena.Every Tuple.DataOnly := by
  have hP := Tuple.sturdy_dataOnly
  -- most of what is asked for does not depend on what the tuples are
  have hkept : ∀ {α : Type} {m : StoreM α}, (everywhere Tuple.DataOnly).Keeps () m (fun _ _ => True)
      (fun _ => True) → ((do let _ ← m : StoreM Unit).after s).arena.Every Tuple.DataOnly :=
    fun hm => (after_discard _ _).symm ▸ every_after hm hs
  have hreplaced : ∀ {h h' : Heap} {c c' : Cell} {a : Unit} {type : TypeDesc} {value : Value},
      (do return ((), ← c.replace h type value) : Except Error (Unit × Cell × Heap)) =
        .ok (a, c', h') → c'.type = type := by
    intro h h' c c' a type value hok
    simp only [bind, Except.bind, pure, Except.pure] at hok
    split at hok
    · cases hok
    · rename_i hreplace
      cases hok
      rw [(Cell.replace_eq_ok_iff.mp hreplace).2.1]
  cases r with
  | create kind permissions parent => exact hkept (keeps_createWith_everywhere hP _ _ _)
  | createFrom kind parent entries => exact hkept (keeps_createFrom_everywhere hP _ _ _)
  | add id name cell => exact hkept (keeps_add_everywhere hP _ _ _)
  | addTuple id name kind => exact hkept (keeps_addTuple_everywhere hP _ _ _)
  | remove id key => exact every_after (keeps_remove_everywhere hP id key) hs
  | clear id => exact every_after (keeps_clear_everywhere hP id) hs
  | destroy id => exact every_destroy (fun _ _ => hP.empty rfl rfl rfl rfl) hs
  | duplicate cell => exact hkept (keeps_duplicate_everywhere hP cell)
  | release cell =>
    exact every_after (.modify ((everywhereCopying hP).release trivial) (E := fun _ => True)) hs
  | releaseNodes nodes =>
    exact every_after (.modify (moves_releaseNodes_everywhere hP nodes) (E := fun _ => True)) hs
  | onHeap f => exact every_after (keeps_tryHeap_everywhere f) hs
  | setAt id key n v =>
    rw [Request.perform, StoreM.setAt]
    refine every_updateCell hs fun t c h a c' h' _ hok _ => .inl ?_
    simp only [bind, Except.bind, pure, Except.pure] at hok
    split at hok
    · cases hok
    · cases hok
      rfl
  | borrowAt id key =>
    rw [Request.perform, after_discard, StoreM.borrowAt]
    refine every_updateCell hs fun t c h a c' h' _ hok _ => .inl ?_
    cases hok
    rfl
  | replaceAt id key type value =>
    rw [Request.perform, StoreM.replaceAt]
    refine every_updateCell hs fun t c h a c' h' hlive hok hdata => .inr ?_
    rw [hreplaced hok]
    exact hr t hlive hdata
  | cloneAt id key source =>
    rw [Request.perform]
    refine every_updateCell hs fun t c h a c' h' hlive hok hdata => .inr ?_
    rw [hreplaced hok]
    exact hr t hlive hdata
  | registerType id name type =>
    refine every_after (keeps_registerType_everywhere (fun t t' ht hinsert => ?_) (fun t ht => ht)
      (fun _ t t' ht hinsert => ?_) id) hs
    · rw [Tuple.insertType_eq_ok hinsert]
      exact ht
    · rw [(Tuple.insertAction_eq_ok hinsert).2]
      exact ht
  | registerAction id action =>
    refine every_after (keeps_registerAction_everywhere (fun t t' ht hinsert => ?_) id) hs
    rw [(Tuple.insertAction_eq_ok hinsert).2]
    exact ht
  | configure settings forms => exact hs
  | parse scope cursor => exact every_parse hP hs scope cursor
  | parseValue scope cursor => exact every_parseValue hP hs scope cursor

/-- Whatever a host does that minds data, data tuples hold nothing else. -/
theorem Serves.every (h : Serves s s') (hs : s.arena.Every Tuple.DataOnly) :
    s'.arena.Every Tuple.DataOnly := by
  induction h with
  | refl => exact hs
  | request r _ hr ih => exact every_perform (ih hs) hr
  | evaluate roots _ _ ih ihhost =>
    exact every_evaluateRoots Tuple.sturdy_dataOnly ihhost (ih hs) roots
  | apply action name operands _ _ ih ihhost =>
    exact every_after (keeps_apply_everywhere Tuple.sturdy_dataOnly ihhost action name operands)
      (ih hs)

/-- A host starts with a new store, with or without the actions of the language, and goes on with
requests of all kinds, with evaluating expressions and with applying actions. As long as it does not
itself replace the type of an attribute of a data tuple by one that is not of data, be it in a body
that it supplies, every attribute of every live data tuple is of a data type. -/
theorem data_tuples_hold_data {settings : Settings} {start s : Store}
    (hstart : start = bare settings ∨ start = withSettings settings) (hrun : Serves start s)
    {id : TupleId} {t : Tuple} (hlive : s.tuple? id = some t) (hdata : t.kind = .data) :
    ∀ e ∈ t.entries, e.cell.type.isData = true := by
  have hnew : start.arena.Every Tuple.DataOnly := by
    rcases hstart with rfl | rfl
    · exact every_bare Tuple.sturdy_dataOnly settings
    · refine every_withSettings Tuple.sturdy_dataOnly (fun a _ t t' ht hinsert => ?_) settings
      rw [(Tuple.insertAction_eq_ok hinsert).2]
      exact ht
  exact (hrun.every hnew).of_get? hlive hdata

/-- A store with a data tuple that has an attribute `x`, an integer. -/
def dataStore : Store :=
  (Request.add ⟨1, 0⟩ (some "x") { type := .leaf "int", loc := 0 }).perform.after
    ((Request.onHeap fun h => .ok ((), (h.alloc (.int 1)).2)).perform.after
      ((Request.create .data {} none).perform.after (bare {})))

/-- Replacing the attribute by a text, and evaluating nothing after that. -/
theorem data_tuples_hold_data_text :
    let d : TupleId := ⟨1, 0⟩
    let s := (Expression.evaluateRoots Host.none []).after
      ((Request.replaceAt d (.name "x") (.leaf "text") (.text "one")).perform.after dataStore)
    Serves (bare {}) s ∧ ∃ t, s.tuple? d = some t ∧ t.kind = .data ∧
      t.entries.map (·.cell.type) = [.leaf "text"] ∧ ∀ e ∈ t.entries,
        e.cell.type.isData = true := by
  intro d s
  have hrun : Serves (bare {}) s := by
    refine .evaluate [] (.request _ ?_ fun _ _ _ => by decide) fun _ a => .refl a.store
    exact .request _ (.request _ (.request _ (.refl _) trivial) trivial) trivial
  have hfound : (s.tuple? d).map (fun t => (t.kind, t.entries.map (·.cell.type))) =
      some (.data, [.leaf "text"]) := by decide +kernel
  obtain ⟨t, hlive, ht⟩ := Option.map_eq_some_iff.mp hfound
  obtain ⟨hdata, htypes⟩ := Prod.mk.inj ht
  exact ⟨hrun, t, hlive, hdata, htypes, data_tuples_hold_data (.inl rfl) hrun hlive hdata⟩

/-- Replacing the attribute by a type is not refused, and leaves a data tuple with something that is
not data. -/
theorem replaced_attribute_is_no_data :
    let d : TupleId := ⟨1, 0⟩
    let s := (Request.replaceAt d (.name "x") (.leaf "type") (.type (.leaf "int"))).perform.after
      dataStore
    ∃ t, s.tuple? d = some t ∧ t.kind = .data ∧ ∃ e ∈ t.entries, e.cell.type.isData = false := by
  intro d s
  have hfound : (s.tuple? d).map (fun t => (t.kind, t.entries.map (·.cell.type))) =
      some (.data, [.leaf "type"]) := by decide +kernel
  obtain ⟨t, hlive, ht⟩ := Option.map_eq_some_iff.mp hfound
  obtain ⟨hdata, htypes⟩ := Prod.mk.inj ht
  obtain ⟨e, he, htype⟩ := List.mem_map.mp (htypes ▸ List.mem_singleton_self (TypeDesc.leaf "type"))
  exact ⟨t, hlive, hdata, e, he, by rw [htype]; decide⟩

end Store

end TupleLang
