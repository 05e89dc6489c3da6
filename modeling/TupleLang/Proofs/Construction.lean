import TupleLang.Proofs.DeepCopy
import TupleLang.Proofs.Reading
import TupleLang.Proofs.Temporaries

/-!
# New plain tuples

A constructor builds a plain tuple from its operands. Those that own their values are taken as they
are, and of the others copies are made, which is the only thing that can go wrong where the names
differ (`Store.Carries.construct`). The tuple has the names and the values in their order
(`Store.Constructs`).

The operands have come about by adding to a store (`Store.Carries`): new places in the heap, and new
tuples, which are in flight in the operands or are lost. An operand that owns nothing is a handle on
a value that was there at first, and it is of this value that a copy is made.
-/

namespace TupleLang

/-- The cell has its place, and there is no tuple in it that is still to come. -/
def Cell.Settled (base : Store) (c : Cell) : Prop :=
  ∃ v, c.Stores base.heap v ∧ ∀ y, v.tupleId? = some y → ¬base.arena.Ahead y

namespace Store

variable {base s s₁ s' : Store} {cells cells' : List Cell} {c : Cell}

/-- The store `s'` has come about from `s`, and `s` from `base`, by adding to them. The new tuples
are in flight in the cells, or nobody has them in hand any more; a cell that owns nothing is a
handle on a value that was there at first. -/
structure Carries (base s s' : Store) (cells : List Cell) : Prop where
  sprouts : base.Sprouts s'
  brings : ∃ lost, s.Brings s' ((cells : Multiset Cell) + lost)
  settled : ∀ c ∈ cells, c.owned = false → c.Settled base

namespace Carries

/-- Nothing is carried at first. -/
protected theorem nil (h : base.Sprouts s) : base.Carries s s [] :=
  ⟨h, ⟨0, by simpa using Brings.refl h.sound⟩, by simp⟩

/-- What is carried stays so while more is carried along. -/
protected theorem trans (h : base.Carries s s₁ cells) (hnext : base.Carries s₁ s' cells') :
    base.Carries s s' (cells ++ cells') := by
  obtain ⟨lost, hbrings⟩ := h.brings
  obtain ⟨lost', hbrings'⟩ := hnext.brings
  refine ⟨hnext.sprouts, ⟨lost' + lost, ?_⟩, fun c hc => ?_⟩
  · rw [← Multiset.coe_add, add_comm (cells : Multiset Cell), add_add_add_comm]
    exact hbrings.trans hbrings'
  · exact (List.mem_append.mp hc).elim (h.settled c) (hnext.settled c)

end Carries

/-! ## Building a tuple -/

/-- Filling a tuple that was not there at first with cells in flight. -/
theorem Sprouts.fill {k : TupleId} {entries : List (Option String × Cell)} {u : Unit}
    (h : base.Sprouts s) (hnew : base.tuple? k = none)
    (hfresh : ∀ p ∈ entries, ∀ y, p.2.ownedTuple? s.heap = some y → base.tuple? y = none)
    (hlive : ∃ t, s.tuple? k = some t) (hrun : StoreM.fill k entries s = .ok u s') :
    base.Sprouts s' := by
  induction entries generalizing s with
  | nil =>
    cases hrun
    exact h
  | cons entry rest ih =>
    obtain ⟨name, c⟩ := entry
    obtain ⟨t, ht⟩ := hlive
    rw [fill_cons ht] at hrun
    split at hrun
    case h_2 => cases hrun
    case h_1 pos t' hinsert =>
      have hput := h.putTuple hnew ht t'
      have hheap := (hput.sound.adoptOwned k (c.ownedTuple? s.heap)).2.heap
      refine ih (hput.adoptOwned (hfresh _ List.mem_cons_self) k) (fun p hp y hy => ?_) ?_ hrun
      · rw [hheap] at hy
        exact hfresh p (List.mem_cons_of_mem _ hp) y hy
      · -- it may get another parent, but stays live
        have hadopt := (tuple?_adoptOwned (s.putTuple k t') k (c.ownedTuple? s.heap) k).1
        rw [tuple?_putTuple ht, if_pos rfl, Option.map_some, Option.map_eq_some_iff] at hadopt
        obtain ⟨u, hu, -⟩ := hadopt
        exact ⟨u, hu⟩

/-- Building a tuple from cells in flight. -/
theorem Sprouts.createFrom {kind : TupleKind} {parent : Option TupleId} {k : TupleId}
    {entries : List (Option String × Cell)} (h : base.Sprouts s)
    (hfresh : ∀ p ∈ entries, ∀ y, p.2.ownedTuple? s.heap = some y → base.tuple? y = none)
    (hrun : StoreM.createFrom kind parent entries s = .ok k s') : base.Sprouts s' := by
  simp only [StoreM.createFrom, StoreM.bind_eq_ok] at hrun
  obtain ⟨k', s₁, hcreate, u, s₂, hfill, hrun⟩ := hrun
  cases hcreate
  cases hrun
  obtain ⟨hsprouts, -, hnew, hlive⟩ := h.alloc
    { kind, permissions := kind.fixedPermissions?.getD {}, parent }
  exact hsprouts.fill (h.kept.tuple?_eq_none hnew) hfresh ⟨_, hlive⟩ hfill

/-! ## Copies of operands -/

/-- What becomes of a cell that is put into a tuple: one that owns its value is taken as it is, and
of any other there is a copy, with tuples that are all new. -/
def Passes (base s s' : Store) (c c' : Cell) : Prop :=
  c.owned = true ∧ c' = c ∨ c.owned = false ∧ ∃ ids ids',
    base.Mirrors s' [⟨none, { c with owned := true }⟩] [⟨none, c'⟩] ids ids' ∧
      ∀ x ∈ ids', s.tuple? x = none

/-- What may be put into a tuple is the same, or is a copy, later on. -/
theorem Passes.keeps {s₂ : Store} {c' : Cell} (h : base.Passes s s₁ c c')
    (hsame : ∀ x t, s₁.tuple? x = some t → (s₂.tuple? x).map Tuple.orphan = some t.orphan)
    (hgrows : s₁.heap.Grows s₂.heap) : base.Passes s s₂ c c' := by
  refine h.imp_right fun ⟨hc, ids, ids', hmirrors, hfresh⟩ => ⟨hc, ids, ids', ?_, hfresh⟩
  refine hmirrors.congr_orphan (fun x hx => ?_) hgrows
  obtain ⟨t, ht⟩ := hmirrors.owns_copies.live x hx
  rw [hsame x t ht, ht, Option.map_some]

/-- A cell that is passed on keeps its type. -/
theorem Passes.type_eq {c' : Cell} (h : base.Passes s s' c c') : c'.type = c.type := by
  rcases h with ⟨-, rfl⟩ | ⟨-, ids, ids', hmirrors, -⟩
  · rfl
  · cases hmirrors with
    | borrowed => rfl
    | scalar _ _ htype => exact htype
    | tuple _ _ htype => exact htype

/-- Copying tuples copies from a rooted base. -/
theorem copiesFrom_duplicateTuple (hbase : base.Rooted) :
    base.CopiesFrom StoreM.duplicateTuple := by
  intro id k s₁ s₂ h hahead hrun
  exact copiesFrom_duplicateTupleWithin hbase (s₁.arena.slots.size + 1) h hahead hrun

/-- A copy of a handle on a value that was there at first. -/
theorem Sprouts.duplicate (hbase : base.Rooted) (h : base.Sprouts s) (hc : c.Settled base)
    {c' : Cell}
    (hrun : StoreM.duplicate c s = .ok c' s') : base.Sprouts s' ∧ s.Extends s' ∧ ∃ ids ids',
      base.Mirrors s' [⟨none, { c with owned := true }⟩] [⟨none, c'⟩] ids ids' ∧
        ∀ x ∈ ids', s.tuple? x = none := by
  obtain ⟨v, hv, hahead⟩ := hc
  exact mirrors_duplicateBy (e := ⟨none, { c with owned := true }⟩)
    (copiesFrom_duplicateTuple hbase) h rfl rfl hv (hv.grows h.kept.values) hahead hrun

/-- What may come of giving a constructor's operands away: they are taken as they are, or copied.
The only way to fail is that a copy cannot be made. -/
def GivesAway (base s : Store) (entries : List (Option String × Cell)) :
    EStateM.Result Error Store (List (Option String × Cell)) → Prop
  | .ok entries' s' => base.Sprouts s' ∧ s.Extends s' ∧
      List.Forall₂ (fun p p' => p'.1 = p.1 ∧ base.Passes s s' p.2 p'.2) entries entries'
  | .error e s' => ∃ p ∈ entries, p.2.owned = false ∧ ∃ r, base.Sprouts r ∧
      StoreM.duplicate p.2 r = .error e s'

/-- The others are given away behind the first, however that has been taken. -/
theorem GivesAway.cons {rest : List (Option String × Cell)} {c' : Cell} (hkept : s.Extends s₁)
    (hpasses : base.Passes s s₁ c c')
    (h : base.GivesAway s₁ rest (Body.ownOperands rest s₁)) (name : Option String) :
    base.GivesAway s ((name, c) :: rest) ((do return (name, c') :: (← Body.ownOperands rest) :
      StoreM (List (Option String × Cell))) s₁) := by
  simp only [bind, EStateM.bind]
  cases hrun : Body.ownOperands rest s₁ with
  | error e s' =>
    rw [hrun] at h
    obtain ⟨p, hp, hfails⟩ := h
    exact ⟨p, List.mem_cons_of_mem _ hp, hfails⟩
  | ok entries' s' =>
    rw [hrun] at h
    obtain ⟨hsprouts', hkept', hall⟩ := h
    refine ⟨hsprouts', hkept.trans hkept', .cons ⟨rfl, hpasses.keeps (fun x t ht => ?_)
      hkept'.values⟩ (hall.imp fun p p' hp => ⟨hp.1, ?_⟩)⟩
    · rw [hkept'.tuples x t ht, Option.map_some]
    · refine hp.2.imp_right fun ⟨hp, ids, ids', hmirrors, hfresh⟩ =>
        ⟨hp, ids, ids', hmirrors, ?_⟩
      -- what was new then was new at first
      exact fun x hx => hkept.tuple?_eq_none (hfresh x hx)

/-- Operands are given away one after the other. -/
theorem givesAway_ownOperands (hbase : base.Rooted) (entries : List (Option String × Cell))
    (h : base.Sprouts s) (hsettled : ∀ p ∈ entries, p.2.owned = false → p.2.Settled base) :
    base.GivesAway s entries (Body.ownOperands entries s) := by
  induction entries generalizing s with
  | nil => exact ⟨h, .refl s, .nil⟩
  | cons entry rest ih =>
    obtain ⟨name, c⟩ := entry
    obtain ⟨hc, hrest⟩ := List.forall_mem_cons.mp hsettled
    -- an owned operand is handed over, a borrowed one is copied first
    by_cases howned : c.owned = true
    · rw [Body.ownOperands, if_pos howned, pure_bind]
      exact .cons (.refl s) (.inl ⟨howned, rfl⟩) (ih h hrest) name
    · rw [Bool.not_eq_true] at howned
      rw [Body.ownOperands, if_neg (by simp [howned])]
      cases hcopy : StoreM.duplicate c s with
      | error e s₁ =>
        simp only [bind, EStateM.bind, hcopy]
        exact ⟨_, List.mem_cons_self, howned, s, h, hcopy⟩
      | ok c' s₁ =>
        obtain ⟨hsprouts, hkept, hmirrors⟩ := h.duplicate hbase (hc howned) hcopy
        have hnext := GivesAway.cons hkept (.inr ⟨howned, hmirrors⟩) (ih hsprouts hrest) name
        simp only [bind, EStateM.bind, hcopy] at hnext ⊢
        exact hnext

/-! ## New plain tuples -/

/-- The cell owns the tuple `k`, which is new, plain and in the store `s'` the tuple `t`. It has
these names, and under each name what has become of an operand. Nothing else has changed, but that
tuples that the operands own are now within this one. -/
structure Constructs (base s s' : Store) (names : List (Option String)) (operands : List Cell)
    (c : Cell) (k : TupleId) (t : Tuple) : Prop where
  owned : c.owned = true
  holds : c.Stores s'.heap (.tuple k)
  type : c.type = t.typeDesc
  new : s.tuple? k = none
  live : s'.tuple? k = some t
  plain : t.kind = .plain
  names : t.entries.map (·.name) = names
  values : List.Forall₂ (base.Passes s s') operands (t.entries.map (·.cell))
  kept : ∀ x u, s.tuple? x = some u → (s'.tuple? x).map Tuple.orphan = some u.orphan
  grows : s.heap.Grows s'.heap

/-- Cells in flight become the attributes of a new plain tuple, unless two of them have the same
name. -/
theorem Holds.createFrom_plain {ids : List TupleId} {entries : List (Option String × Cell)}
    (hheld : s.Holds (entries.map (·.2) : List Cell) ids) (hs : s.Sound) (parent : Option TupleId) :
    match StoreM.createFrom .plain parent entries s with
    | .ok k s' => ∃ t, s.tuple? k = none ∧ s'.tuple? k = some t ∧ t.kind = .plain ∧
        t.entries = (entries.map fun e => ⟨e.1, e.2⟩) ∧
        (∀ x u, s.tuple? x = some u → (s'.tuple? x).map Tuple.orphan = some u.orphan) ∧
        s.heap.Grows s'.heap
    | .error _ _ => ¬(entries.filterMap (·.1)).Nodup := by
  have hcreated := tuple?_createFrom hs .plain parent entries hheld
  have hfilled := Tuple.insertAll_cases
    (t := { kind := .plain, permissions := TupleKind.plain.fixedPermissions?.getD {}, parent })
    rfl List.nodup_nil entries
  cases hrun : StoreM.createFrom .plain parent entries s with
  | error e s' =>
    rw [hrun] at hcreated
    rw [hcreated.1] at hfilled
    exact fun hnodup => hfilled ⟨hnodup, nofun⟩
  | ok k s' =>
    rw [hrun] at hcreated
    obtain ⟨t, hall, ht, hk, -, -, htrade, horphan⟩ := hcreated
    rw [hall] at hfilled
    obtain ⟨-, -, hkind, hentries⟩ := hfilled
    -- the new tuple is none of those that were there
    have hnew := htrade.fresh k List.mem_cons_self hk
    refine ⟨t, hnew, ht, hkind, hentries, fun x u hu => ?_, htrade.heap⟩
    rw [horphan x fun hx => ?_, hu, Option.map_some]
    rw [hx, hnew] at hu
    cases hu

section Construct

variable {r : Store} {names : List (Option String)} {front kept : List Cell}

/-- Operands that are in flight, when some in front of them are left out and the others are given
names. -/
theorem Carries.brings_zip (h : base.Carries r s (front ++ kept))
    (hlength : names.length = kept.length) :
    ∃ rest : Multiset Cell,
      r.Brings s (((names.zip kept).map (·.2) : List Cell) + rest) := by
  obtain ⟨lost, hbrings⟩ := h.brings
  refine ⟨(front : Multiset Cell) + lost, ?_⟩
  rwa [List.map_snd_zip hlength.ge, ← add_assoc, add_comm (Multiset.ofList kept), Multiset.coe_add]

/-- The operands that have been taken are in flight, the tuples in them were not there at first, and
a plain tuple may be built from them. -/
theorem Carries.owned {entries : List (Option String × Cell)}
    (h : base.Carries r s (front ++ kept)) (hr : base.Extends r)
    (hlength : names.length = kept.length)
    (hown : Body.ownOperands (names.zip kept) s = .ok entries s₁) :
    (∃ ids, s₁.Holds (entries.map (·.2) : List Cell) ids) ∧
      ∀ p ∈ entries, ∀ y, p.2.ownedTuple? s₁.heap = some y → base.tuple? y = none := by
  obtain ⟨rest, hbrings⟩ := h.brings_zip hlength
  obtain ⟨ids, hheld, hmakes⟩ := (hbrings.ownOperands hown).1
  obtain ⟨i, j, -, hi, -⟩ := hheld.split
  refine ⟨⟨i, hi⟩, fun p hp y hy => ?_⟩
  have hmem : p.2 ∈ ((entries.map (·.2) : List Cell) : Multiset Cell) + rest :=
    Multiset.mem_add.mpr (.inl (List.mem_map_of_mem hp))
  exact hr.tuple?_eq_none (hmakes.trade.fresh y (hheld.mem_of_ownedTuple? hmem hy) (by simp))

/-- Operands with names are taken as they are, or copied. -/
theorem Carries.ownOperands_cases (h : base.Carries r s (front ++ kept))
    (hbase : base.Rooted) (hlength : names.length = kept.length) :
    match Body.ownOperands (names.zip kept) s with
    | .ok entries s₁ => base.Sprouts s₁ ∧ s.Extends s₁ ∧ entries.map (·.1) = names ∧
        List.Forall₂ (base.Passes s s₁) kept (entries.map (·.2))
    | .error e s' => ∃ c ∈ kept, c.owned = false ∧ ∃ r, base.Sprouts r ∧
        StoreM.duplicate c r = .error e s' := by
  have hmem : ∀ p ∈ names.zip kept, p.2 ∈ kept := fun p hp =>
    (List.of_mem_zip (a := p.1) (b := p.2) hp).2
  have hcases := givesAway_ownOperands hbase (names.zip kept) h.sprouts fun p hp =>
    h.settled p.2 (List.mem_append_right _ (hmem p hp))
  cases hown : Body.ownOperands (names.zip kept) s with
  | error e s' =>
    rw [hown] at hcases
    obtain ⟨p, hp, hfails⟩ := hcases
    exact ⟨p.2, hmem p hp, hfails⟩
  | ok entries s₁ =>
    rw [hown] at hcases
    obtain ⟨hsprouts, hextends, hall⟩ := hcases
    refine ⟨hsprouts, hextends, ?_, ?_⟩
    · -- owning an operand leaves its name as it is
      have hnames : entries.map (·.1) = (names.zip kept).map (·.1) := by
        refine List.forall₂_eq_eq_eq ▸ List.forall₂_map_left_iff.mpr ?_
        exact List.forall₂_map_right_iff.mpr (hall.flip.imp fun _ _ hp => hp.1)
      rw [hnames, List.map_fst_zip hlength.le]
    · have hvalues : List.Forall₂ (base.Passes s s₁) ((names.zip kept).map (·.2))
          (entries.map (·.2)) :=
        List.forall₂_map_left_iff.mpr (List.forall₂_map_right_iff.mpr (hall.imp fun _ _ hp => hp.2))
      rwa [List.map_snd_zip hlength.ge] at hvalues

/-- A constructor builds a plain tuple from the last operands. -/
theorem Carries.construct (h : base.Carries r s (front ++ kept)) (hbase : base.Rooted)
    (hr : base.Extends r) (hlength : names.length = kept.length) (name : String) :
    match (Body.construct names).effect name (front ++ kept).reverse s with
    | .ok (signal, c) s' => signal = .normal ∧ base.Sprouts s' ∧
        ∃ k t, base.Constructs s s' names kept c k t
    | .error e s' => ¬(names.filterMap id).Nodup ∨ ∃ c ∈ kept, c.owned = false ∧
        ∃ r, base.Sprouts r ∧ StoreM.duplicate c r = .error e s' := by
  -- the names of the type take the last operands off the stack
  have heffect : (Body.construct names).effect name (front ++ kept).reverse s = (do
      let entries ← Body.ownOperands (names.zip kept)
      let id ← StoreM.createFrom .plain (some (← get).root) entries
      return (.normal, ← StoreM.newCell (← StoreM.ofExcept ((← get).typeOf id)) (.tuple id)) :
        StoreM (Signal × Cell)) s := by
    have htake : ((front ++ kept).reverse.take names.length).reverse = kept := by
      rw [List.reverse_append, hlength, ← List.length_reverse, List.take_left, List.reverse_reverse]
    rw [Body.effect, if_pos (by simp [hlength]), htake]
  rw [heffect]
  -- operands that do not own their tuple are copied, which may fail
  have hcases := h.ownOperands_cases hbase hlength
  simp only [bind, EStateM.bind]
  cases hown : Body.ownOperands (names.zip kept) s with
  | error e s' =>
    rw [hown] at hcases
    exact .inr hcases
  | ok entries s₁ =>
    rw [hown] at hcases
    obtain ⟨hsprouts, hextends, hnames, hvalues⟩ := hcases
    -- now all entries are owned, so that the new tuple can take them in
    obtain ⟨⟨ids, hheld⟩, hfresh⟩ := h.owned hr hlength hown
    have hcreated := hheld.createFrom_plain hsprouts.sound (some s₁.root)
    simp only [get, getThe, MonadStateOf.get, EStateM.get]
    cases hcreate : StoreM.createFrom .plain (some s₁.root) entries s₁ with
    | error e s' =>
      rw [hcreate] at hcreated
      -- a plain tuple refuses nothing but a name that is given twice
      refine .inl ?_
      rwa [← hnames, List.filterMap_map]
    | ok k s₂ =>
      rw [hcreate] at hcreated
      obtain ⟨t, hnew, ht, hkind, hentries, hkept, hgrows⟩ := hcreated
      have htype : s₂.typeOf k = .ok t.typeDesc := by
        simp only [typeOf, Store.tuple, ht]
        rfl
      have hheap := Cell.grows_make s₂.heap t.typeDesc (.tuple k)
      simp only [htype]
      refine ⟨rfl, (hsprouts.createFrom hfresh hcreate).grow hheap, k, t, ?_⟩
      exact
        { owned := rfl
          holds := Cell.stores_make s₂.heap t.typeDesc (.tuple k)
          type := rfl
          new := hextends.tuple?_eq_none hnew
          live := ht
          plain := hkind
          names := by rw [hentries, List.map_map, ← hnames]; rfl
          values := by
            rw [hentries, List.map_map]
            exact hvalues.imp fun _ _ hp => hp.keeps hkept (hgrows.trans hheap)
          kept := fun x u hu => hkept x u (hextends.tuples x u hu)
          grows := hextends.values.trans (hgrows.trans hheap) }

end Construct

end Store

end TupleLang
