import TupleLang.Proofs.Build
import TupleLang.Store.Text

/-!
# Data

A datum is what a cell stands for, without the places in which it is kept: a scalar with the name of
its type, or a tuple with its kind and its attributes. `Store.Denotes` relates cells to data; two
cells are structurally equal, in one store or in two, when they denote the same datum.

The type and the text of a cell are the type and the text of the datum that it denotes.
-/

namespace TupleLang

/-- A value apart from the store that keeps it. -/
inductive Datum where
  /-- A value of a leaf type. -/
  | scalar (type : String) (value : Value)
  /-- A tuple with its attributes in order. -/
  | tuple (kind : TupleKind) (entries : List (Option String × Datum))

namespace Datum

/-- An attribute: its optional name and what it stands for. -/
abbrev Entry := Option String × Datum

/-- Whether the datum is a tuple. -/
def isTuple : Datum → Bool
  | scalar _ _ => false
  | tuple _ _ => true

mutual

/-- The type of a datum. -/
def type : Datum → TypeDesc
  | scalar type _ => .leaf type
  | tuple .plain entries => .tree (fieldsOf entries)
  | tuple kind _ => .leaf kind.tag

/-- Names and types of attributes. -/
def fieldsOf : List Entry → List TypeDesc.Field
  | [] => []
  | (name, d) :: rest => (name, d.type) :: fieldsOf rest

end

mutual

/-- Whether there is a floating point number anywhere in a datum. -/
def hasFloat : Datum → Bool
  | scalar _ (.float _) => true
  | scalar _ _ => false
  | tuple _ entries => anyFloat entries

/-- Whether there is a floating point number anywhere in attributes. -/
def anyFloat : List Entry → Bool
  | [] => false
  | (_, d) :: rest => d.hasFloat || anyFloat rest

end

/-- The fields of a tuple's type are the names and types of its entries. -/
theorem fieldsOf_eq_map (entries : List Entry) :
    fieldsOf entries = entries.map fun e => (e.1, e.2.type) := by
  induction entries with
  | nil => rfl
  | cons e entries ih =>
    obtain ⟨name, d⟩ := e
    rw [fieldsOf, ih, List.map_cons]

/-! ## Text -/

/-- Literal text of a scalar. -/
def scalarText (forms : TextForms) (type : String) (value : Value) : String :=
  (forms.format? (.leaf type) value).getD value.plainText

/-- Pieces of one attribute whose value has the pieces `inner`. -/
def entryPieces (state : Store.EntriesState) (name : Option String) (isTuple : Bool)
    (inner : List Piece) : List Piece × Store.EntriesState :=
  if isTuple then
    let block := if state.inBlock then [] else [.startBlock]
    let body :=
      match name with
      | some name =>
        [.word name, .punct ":", .startBlock, .lineBreak] ++ inner ++ [.endBlock]
      | none => inner
    (block ++ .lineBreak :: body, { inBlock := true, afterTuple := true })
  else
    let gap := if state.afterTuple then [.lineBreak] else []
    let name :=
      match name with
      | some name => [.word name, .punct "="]
      | none => []
    (gap ++ name ++ inner, { state with afterTuple := false })

mutual

/-- Pieces of a datum inside a tuple of kind `enclosing`. -/
def pieces (forms : TextForms) (enclosing : Option TupleKind) : Datum → List Piece
  | scalar type value => [.word (scalarText forms type value)]
  | tuple kind entries =>
    let letter := if enclosing = some kind then [] else [.word kind.letter]
    let (inner, inBlock) := entriesPieces forms kind true {} entries
    let close := if inBlock then [.endBlock, .lineBreak] else []
    letter ++ .punct "(" :: inner ++ close ++ [.punct ")"]

/-- Pieces of attributes behind others, and whether a block is open at the end. -/
def entriesPieces (forms : TextForms) (kind : TupleKind) :
    (first : Bool) → (state : Store.EntriesState) → List Entry → List Piece × Bool
  | _, state, [] => ([], state.inBlock)
  | first, state, (name, d) :: rest =>
    let (pieces, state) := entryPieces state name d.isTuple (d.pieces forms (some kind))
    let (others, inBlock) := entriesPieces forms kind false state rest
    let comma := if first then [] else [.punct ","]
    (comma ++ pieces ++ others, inBlock)

end

/-- The text of a datum. -/
def text (forms : TextForms) : Datum → String
  | scalar type value => scalarText forms type value
  | tuple kind entries => Layout.render ((tuple kind entries).pieces forms none)

end Datum

namespace Store

/-- The cells stand for the data, and own exactly the tuples `ids`. -/
inductive Denotes (s : Store) : List Cell → List Datum → List TupleId → Prop
  | nil : Denotes s [] [] []
  | scalar {c : Cell} {cells : List Cell} {type : String} {v : Value} {data : List Datum}
      {ids : List TupleId} :
      c.type = .leaf type → c.Stores s.heap v → v.tupleId? = none → Denotes s cells data ids →
      Denotes s (c :: cells) (.scalar type v :: data) ids
  | tuple {c : Cell} {cells : List Cell} {id : TupleId} {t : Tuple} {entries : List Datum.Entry}
      {data : List Datum} {inner ids : List TupleId} :
      c.owned = true → c.Stores s.heap (.tuple id) → s.tuple? id = some t → c.type = t.typeDesc →
      t.entries.map (·.name) = entries.map (·.1) →
      Denotes s (t.entries.map (·.cell)) (entries.map (·.2)) inner → Denotes s cells data ids →
      Denotes s (c :: cells) (.tuple t.kind entries :: data) (id :: (inner ++ ids))

namespace Denotes

variable {s s' : Store} {cells cells' : List Cell} {data data' : List Datum}
  {ids ids' : List TupleId}

/-- Cells own the tuples of what they denote. -/
theorem owns (h : s.Denotes cells data ids) : s.Owns cells ids := by
  induction h with
  | nil => exact .nil
  | scalar _ hv hid _ ih => exact .loose (.inr ⟨_, hv, hid⟩) ih
  | tuple hown hv ht _ _ _ _ ih₁ ih₂ => exact .tuple hown hv ht ih₁ ih₂

/-- What cells denote depends on the owned tuples but for their parents, and on the values in the
heap only. -/
theorem congr_orphan (h : s.Denotes cells data ids)
    (hsame : ∀ x ∈ ids, (s'.tuple? x).map Tuple.orphan = (s.tuple? x).map Tuple.orphan)
    (hheap : s.heap.Grows s'.heap) : s'.Denotes cells data ids := by
  induction h with
  | nil => exact .nil
  | scalar htype hv hid _ ih => exact .scalar htype (hv.grows hheap) hid (ih hsame)
  | @tuple c cells id t entries data inner ids hown hv ht htype hnames _ _ ih₁ ih₂ =>
    have hid := hsame id (by simp)
    rw [ht] at hid
    obtain ⟨t', ht', horphan⟩ := Option.map_eq_some_iff.mp hid
    -- only the scope around the tuple may have changed, and its text does not show that
    have hkind : t'.orphan.kind = t.orphan.kind := by rw [horphan]
    have hentries : t'.orphan.entries = t.orphan.entries := by rw [horphan]
    change t'.kind = t.kind at hkind
    change t'.entries = t.entries at hentries
    rw [← hkind]
    refine .tuple hown (hv.grows hheap) ht' ?_ (hentries ▸ hnames) ?_
      (ih₂ fun x hx => hsame x (by simp [hx]))
    · rw [htype, Tuple.typeDesc, Tuple.typeDesc, hkind, hentries]
    · rw [hentries]
      exact ih₁ fun x hx => hsame x (by simp [hx])

/-- What cells denote stays the same beside a trade. -/
theorem keeps (h : s.Denotes cells data ids) {old new : List TupleId} (ht : s.Trade old s' new)
    (hdisj : ∀ x ∈ ids, x ∉ old) : s'.Denotes cells data ids := by
  refine h.congr_orphan (fun x hx => ?_) ht.heap
  obtain ⟨t, hlive⟩ := h.owns.live x hx
  rw [ht.same x (hdisj x hx) (ht.not_mem_new hlive (hdisj x hx))]

/-- Lists of cells denote what their parts denote. -/
theorem append (h : s.Denotes cells data ids) (h' : s.Denotes cells' data' ids') :
    s.Denotes (cells ++ cells') (data ++ data') (ids ++ ids') := by
  induction h with
  | nil => exact h'
  | scalar htype hv hid _ ih => exact .scalar htype hv hid ih
  | tuple hown hv ht htype hnames hin _ _ ih =>
    simpa using Denotes.tuple hown hv ht htype hnames hin ih

/-- The types of cells are those of the data. -/
theorem map_type (h : s.Denotes cells data ids) : cells.map (·.type) = data.map Datum.type := by
  induction h with
  | nil => rfl
  | scalar htype _ _ _ ih => rw [List.map_cons, List.map_cons, ih, htype, Datum.type]
  | @tuple c cells id t entries data inner ids _ _ _ htype hnames _ _ ih₁ ih₂ =>
    rw [List.map_cons, List.map_cons, ih₂, htype]
    refine congrArg (· :: _) ?_
    cases hkind : t.kind with
    | plain =>
      rw [Tuple.typeDesc, hkind, Datum.type, Datum.fieldsOf_eq_map]
      refine congrArg TypeDesc.tree ?_
      rw [List.map_map, List.map_map] at ih₁
      -- names and types of the attributes agree one by one, so the fields do
      have hzip := congrArg₂ List.zip hnames ih₁
      rwa [List.zip_map', List.zip_map'] at hzip
    | dynamic => rw [Tuple.typeDesc, hkind, Datum.type]; simp
    | data => rw [Tuple.typeDesc, hkind, Datum.type]; simp
    | custom tag => rw [Tuple.typeDesc, hkind, Datum.type]; simp

/-- Cells denote one list of data only. -/
theorem unique (h : s.Denotes cells data ids) (h' : s.Denotes cells data' ids') : data = data' := by
  induction h generalizing data' ids' with
  | nil => cases h'; rfl
  | scalar htype hv hid _ ih =>
    cases h' with
    | scalar htype' hv' _ hrest =>
      rw [htype, TypeDesc.leaf.injEq] at htype'
      rw [htype', Option.some.inj (hv.symm.trans hv'), ih hrest]
    | tuple _ hv' =>
      -- a place that holds a tuple holds no scalar
      rw [Option.some.inj (hv.symm.trans hv')] at hid
      cases hid
  | tuple _ hv ht _ hnames _ _ ih₁ ih₂ =>
    cases h' with
    | scalar _ hv' hid' =>
      rw [← Option.some.inj (hv.symm.trans hv')] at hid'
      cases hid'
    | tuple _ hv' ht' _ hnames' hin' hrest =>
      obtain rfl := Value.tuple.inj (Option.some.inj (hv.symm.trans hv'))
      obtain rfl := Option.some.inj (ht.symm.trans ht')
      have hzip := congrArg₂ List.zip (hnames.symm.trans hnames') (ih₁ hin')
      rw [List.zip_map', List.zip_map', List.map_id', List.map_id'] at hzip
      rw [ih₂ hrest, hzip]

/-! ## Text of what cells denote -/

section Text

variable {nested : TupleId → Except Error (List Piece)} {state : EntriesState} {a : Attribute}
  {id : TupleId} {t : Tuple}

/-- The pieces of an entry with a scalar. -/
theorem entryPieces_scalar (h : a.cell.tupleId? s.heap = none) :
    s.entryPieces nested state a =
      .ok (Datum.entryPieces state a.name false [.word (s.scalarText a.cell)]) := by
  rw [entryPieces, h]
  rfl

/-- The pieces of an entry with a tuple are made from those of the tuple. -/
theorem entryPieces_tuple {inner : List Piece} (h : a.cell.tupleId? s.heap = some id)
    (hinner : nested id = .ok inner) :
    s.entryPieces nested state a = .ok (Datum.entryPieces state a.name true inner) := by
  rw [entryPieces, h]
  dsimp only
  rw [hinner]
  rfl

/-- A tuple is written like a datum if its attributes are. -/
theorem tuplePieces_eq {fuel : Nat} (enclosing : Option TupleKind) {entries : List Datum.Entry}
    (ht : s.tuple? id = some t)
    (hentries : s.entriesPieces (s.tuplePieces fuel (some t.kind)) true {} t.entries =
      .ok (Datum.entriesPieces s.forms t.kind true {} entries)) :
    s.tuplePieces (fuel + 1) enclosing id =
      .ok ((Datum.tuple t.kind entries).pieces s.forms enclosing) := by
  have htuple : s.tuple id = .ok t := by rw [Store.tuple, ht]
  rw [tuplePieces, htuple]
  simp only [bind, Except.bind, hentries, Datum.pieces]
  rfl

end Text

/-- The text of a cell with a scalar. -/
theorem scalarText_eq {c : Cell} {type : String} {v : Value} (htype : c.type = .leaf type)
    (hv : c.Stores s.heap v) : s.scalarText c = Datum.scalarText s.forms type v := by
  rw [Store.scalarText, hv.value_eq, htype, Datum.scalarText]

/-- Attributes are written like the attributes of the datum. -/
theorem entriesPieces_eq (h : s.Denotes cells data ids) {fuel : Nat} (hfuel : ids.length ≤ fuel) :
    ∀ (attributes : List Attribute) (entries : List Datum.Entry),
      attributes.map (·.cell) = cells → attributes.map (·.name) = entries.map (·.1) →
        entries.map (·.2) = data → ∀ (kind : TupleKind) (first : Bool) (state : EntriesState),
          s.entriesPieces (s.tuplePieces fuel (some kind)) first state attributes =
            .ok (Datum.entriesPieces s.forms kind first state entries) := by
  induction h generalizing fuel with
  | nil =>
    intro attributes entries hcells _ hdata kind first state
    rw [List.map_eq_nil_iff.mp hcells, List.map_eq_nil_iff.mp hdata]
    rfl
  | @scalar c cells type v data ids htype hv hid _ ih =>
    intro attributes entries hcells hnames hdata kind first state
    obtain ⟨a, attributes, rfl, rfl, hcells'⟩ := List.map_eq_cons_iff.mp hcells
    obtain ⟨⟨name, d⟩, entries, rfl, hd, hdata'⟩ := List.map_eq_cons_iff.mp hdata
    obtain ⟨hname, hrest⟩ := List.cons.inj hnames
    dsimp only at hd hname
    have hnone : a.cell.tupleId? s.heap = none := by rw [Cell.tupleId?, hv.value_eq, hid]
    simp only [entriesPieces, bind, Except.bind, entryPieces_scalar hnone,
      ih hfuel attributes entries hcells' hrest hdata', Datum.entriesPieces]
    rw [scalarText_eq htype hv, hname, hd]
    rfl
  | @tuple c cells id t inner' data inner ids hown hv ht htype hnames' _ _ ih₁ ih₂ =>
    intro attributes entries hcells hnames hdata kind first state
    obtain ⟨a, attributes, rfl, rfl, hcells'⟩ := List.map_eq_cons_iff.mp hcells
    obtain ⟨⟨name, d⟩, entries, rfl, hd, hdata'⟩ := List.map_eq_cons_iff.mp hdata
    obtain ⟨hname, hrest⟩ := List.cons.inj hnames
    dsimp only at hd hname
    rw [List.length_cons, List.length_append] at hfuel
    obtain ⟨fuel, rfl⟩ : ∃ f, fuel = f + 1 := ⟨fuel - 1, by omega⟩
    -- the nested tuple takes one level of the fuel, and owns at least itself
    have hsome : a.cell.tupleId? s.heap = some id := by rw [Cell.tupleId?, hv.value_eq]; rfl
    have hfuel' : inner.length ≤ fuel := by omega
    have hin := ih₁ hfuel' t.entries inner' rfl hnames' rfl t.kind true {}
    have hfuel'' : ids.length ≤ fuel + 1 := by omega
    have hothers := ih₂ hfuel'' attributes entries hcells' hrest hdata'
    simp only [entriesPieces, bind, Except.bind,
      entryPieces_tuple hsome (tuplePieces_eq (some kind) ht hin), hothers,
      Datum.entriesPieces]
    rw [hname, hd]
    rfl

/-- The text of a cell is the text of what it denotes. -/
theorem cellText_eq {c : Cell} {d : Datum} (h : s.Denotes [c] [d] ids) (hnodup : ids.Nodup) :
    s.cellText c = .ok (d.text s.forms) := by
  have hsize := Arena.length_le_of_live hnodup h.owns.live
  cases h with
  | scalar htype hv hid _ =>
    rw [cellText, Cell.tupleId?, hv.value_eq, hid]
    exact congrArg _ (scalarText_eq htype hv)
  | @tuple _ _ id t entries _ inner _ hown hv ht htype hnames hin _ =>
    rw [List.length_cons, List.length_append] at hsize
    -- the tuples inside are live and differ, so there are fewer of them than slots
    have hfuel : inner.length ≤ s.arena.slots.size := by omega
    have hpieces := hin.entriesPieces_eq hfuel t.entries entries rfl hnames rfl t.kind true {}
    rw [cellText, Cell.tupleId?, hv.value_eq]
    dsimp only [Value.tupleId?]
    rw [tupleText, pieces, tuplePieces_eq none ht hpieces]
    rfl

end Denotes

end Store

end TupleLang
