import TupleLang.Proofs.Destroy

/-!
# Ownership

The tuples that cells *own* are the tuples in them and, in turn, the tuples that the cells of those
own. `Store.Owns s cells ids` says that the cells own exactly the tuples `ids`. When no tuple is
listed twice, giving the cells up destroys these tuples and changes nothing else
(`Owns.tuple?_releaseAll`).

`Store.Trade s old s' new` describes a change of a store by what it does to ownership: the tuples
`old` have been exchanged for the tuples `new`, and every other tuple is as it was. Trades compose,
and what somebody else owns stays as it is (`Trade.keeps`).
-/

namespace TupleLang

/-- Every place of one heap is in use in another, and has the tuple there that it has here, or none
as here. -/
def Heap.Retains (h h' : Heap) : Prop :=
  ∀ (i : Nat) (v : Value), h.values[i]? = some v →
    ∃ v', h'.values[i]? = some v' ∧ v'.tupleId? = v.tupleId?

/-- A growing heap keeps all values, and so all tuples. -/
theorem Heap.Grows.retains {h h' : Heap} (hg : h.Grows h') : h.Retains h' := fun i v hv =>
  ⟨v, hg i v hv, rfl⟩

namespace Heap.Retains

variable {h h' h'' : Heap}

/-- A heap retains its own cells. -/
protected theorem refl (h : Heap) : h.Retains h := (Heap.Grows.refl h).retains

/-- Tuples that stay where they are twice stay where they are. -/
protected theorem trans (h₁ : h.Retains h') (h₂ : h'.Retains h'') : h.Retains h'' := by
  intro i v hv
  obtain ⟨v', hv', hid⟩ := h₁ i v hv
  obtain ⟨v'', hv'', hid'⟩ := h₂ i v' hv'
  exact ⟨v'', hv'', hid'.trans hid⟩

/-- A value that is no tuple may be written over another one. -/
theorem put {loc : Nat} {v w : Value} (hv : h.values[loc]? = some v) (hnone : v.tupleId? = none)
    (hw : w.tupleId? = none) : h.Retains (h.put loc w) := by
  intro i u hu
  by_cases hi : loc = i
  · subst hi
    rw [hv] at hu
    cases hu
    have hlt := (Array.getElem?_eq_some_iff.mp hv).1
    exact ⟨w, by simp [Heap.put, hlt], hw.trans hnone.symm⟩
  · exact ⟨u, by simpa [Heap.put, Array.getElem?_setIfInBounds_ne hi] using hu, rfl⟩

end Heap.Retains

namespace Cell

/-- The place of the cell holds `v`. -/
def Stores (h : Heap) (c : Cell) (v : Value) : Prop := h.values[c.loc]? = some v

/-- The place of the cell is in use, and there is no tuple in it. -/
def IsScalar (h : Heap) (c : Cell) : Prop := ∃ v, c.Stores h v ∧ v.tupleId? = none

/-- The cell brings no tuple along: it owns nothing, or what it owns is no tuple. -/
def Loose (h : Heap) (c : Cell) : Prop := c.owned = false ∨ ∃ v, c.Stores h v ∧ v.tupleId? = none

variable {h h' : Heap} {c : Cell} {v : Value}

/-- The value of a cell is what its place holds. -/
theorem Stores.value_eq (hv : c.Stores h v) : c.value h = v := by
  simp [value, Heap.get, show h.values[c.loc]? = some v from hv]

/-- A cell holds the tuple that its place does. -/
theorem Stores.tupleId?_eq (hv : c.Stores h v) : c.tupleId? h = v.tupleId? := by
  rw [Cell.tupleId?, hv.value_eq]

/-- A cell holds the tuple that it owns. -/
theorem tupleId?_of_ownedTuple? {id : TupleId} (hid : c.ownedTuple? h = some id) :
    c.tupleId? h = some id := by
  unfold ownedTuple? at hid
  split at hid
  · exact hid
  · cases hid

/-- A growing heap keeps what a place holds. -/
theorem Stores.grows (hv : c.Stores h v) (hg : h.Grows h') : c.Stores h' v := hg _ _ hv

/-- A place with a tuple keeps it while tuples stay where they are. -/
theorem Stores.retains {id : TupleId} (hv : c.Stores h (.tuple id)) (hr : h.Retains h') :
    c.Stores h' (.tuple id) := by
  obtain ⟨v', hv', hid⟩ := hr _ _ hv
  cases v' with
  | tuple id' =>
    cases hid
    exact hv'
  | _ => cases hid

/-- A scalar stays one while tuples stay where they are. -/
theorem IsScalar.retains (hc : c.IsScalar h) (hr : h.Retains h') : c.IsScalar h' := by
  obtain ⟨v, hv, hnone⟩ := hc
  obtain ⟨v', hv', hid⟩ := hr _ _ hv
  exact ⟨v', hv', hid.trans hnone⟩

/-- A scalar brings no tuple along. -/
theorem IsScalar.loose (hc : c.IsScalar h) : c.Loose h := .inr hc

/-- What brings no tuple along brings none while tuples stay where they are. -/
theorem Loose.retains (hc : c.Loose h) (hr : h.Retains h') : c.Loose h' :=
  hc.imp_right (IsScalar.retains · hr)

/-- A growing heap keeps cells without a tuple so. -/
theorem Loose.grows (hc : c.Loose h) (hg : h.Grows h') : c.Loose h' := hc.retains hg.retains

/-- A cell without a tuple has none to give up. -/
theorem Loose.ownedTuple? (hc : c.Loose h) : c.ownedTuple? h = none := by
  rcases hc with hc | ⟨v, hv, hid⟩
  · simp [Cell.ownedTuple?, hc]
  · simp [Cell.ownedTuple?, Cell.tupleId?, hv.value_eq, hid]

/-- A cell that can be read as a native value stores one. -/
theorem stores_of_read {n : Native} {w : n.Carrier} (hread : c.read h n = .ok w) :
    ∃ v, c.Stores h v ∧ v.tupleId? = none := by
  unfold read checkType at hread
  split at hread
  · simp only [bind, Except.bind] at hread
    split at hread
    · rename_i w' hw
      cases hv : h.values[c.loc]? with
      | none =>
        rw [value, Heap.get, hv, Option.getD_none] at hw
        -- a place that is not there reads as void, which is no native value
        cases n <;> cases hw
      | some v =>
        refine ⟨v, hv, ?_⟩
        rw [value, Heap.get, hv, Option.getD_some] at hw
        cases v with
        | tuple id => cases n <;> cases hw
        | _ => rfl
    · cases hread
  · cases hread

/-- A cell that can be read as a native value holds no tuple. -/
theorem loose_of_read {n : Native} {w : n.Carrier} (hread : c.read h n = .ok w) : c.Loose h :=
  .inr (stores_of_read hread)

/-- A cell reads the same in a larger heap. -/
theorem read_grows {n : Native} {w : n.Carrier} (hread : c.read h n = .ok w) (hg : h.Grows h') :
    c.read h' n = .ok w := by
  obtain ⟨v, hv, -⟩ := stores_of_read hread
  unfold read at hread ⊢
  rwa [(hv.grows hg).value_eq, ← hv.value_eq]

/-- The new cell holds its value. -/
theorem stores_make (h : Heap) (type : TypeDesc) (v : Value) :
    (make h type v).1.Stores (make h type v).2 v := by
  simp [make, Stores, Heap.alloc]

/-- Making a cell lets the heap grow. -/
theorem grows_make (h : Heap) (type : TypeDesc) (v : Value) : h.Grows (make h type v).2 :=
  Heap.Grows.alloc h v

/-- A native value can be read from the place that was made for it. -/
theorem read_make_native (h : Heap) (n : Native) (v : n.Carrier) :
    (make h (.leaf n.typeName) (n.wrap v)).1.read (make h (.leaf n.typeName) (n.wrap v)).2 n =
      .ok v := by
  have hadmits : (make h (.leaf n.typeName) (n.wrap v)).1.admits n = true := by
    cases n <;> rfl
  rw [read, checkType, if_pos hadmits, (stores_make _ _ _).value_eq, Native.unwrap?_wrap]
  rfl

/-- Who has read a place may read it. -/
theorem admits_of_read {n : Native} {w : n.Carrier} (hread : c.read h n = .ok w) :
    c.admits n = true := by
  by_contra hno
  rw [read, checkType, if_neg hno] at hread
  cases hread

/-- What is stored in a place that has been read can be read from there again. -/
theorem read_put {n : Native} {w : n.Carrier} (hread : c.read h n = .ok w) (r : n.Carrier) :
    c.read (h.put c.loc (n.wrap r)) n = .ok r := by
  obtain ⟨_, hstores, -⟩ := stores_of_read hread
  have hloc : c.loc < h.values.size := (Array.getElem?_eq_some_iff.mp hstores).1
  rw [read, checkType, if_pos (admits_of_read hread), value, Heap.get_put_self _ hloc,
    Native.unwrap?_wrap]
  rfl

end Cell

namespace Store

/-- The cells own exactly the tuples `ids`, those within tuples included. -/
inductive Owns (s : Store) : List Cell → List TupleId → Prop
  | nil : Owns s [] []
  | loose {c : Cell} {cells : List Cell} {ids : List TupleId} :
      c.Loose s.heap → Owns s cells ids → Owns s (c :: cells) ids
  | tuple {c : Cell} {cells : List Cell} {id : TupleId} {t : Tuple} {inner ids : List TupleId} :
      c.owned = true → c.Stores s.heap (.tuple id) → s.tuple? id = some t →
      Owns s (t.entries.map (·.cell)) inner → Owns s cells ids →
      Owns s (c :: cells) (id :: (inner ++ ids))

namespace Owns

variable {s s' : Store} {cells cells' : List Cell} {ids ids' : List TupleId}

/-- Owned tuples are live. -/
theorem live (h : s.Owns cells ids) : ∀ x ∈ ids, ∃ t, s.tuple? x = some t := by
  induction h with
  | nil => simp
  | loose _ _ ih => exact ih
  | tuple _ _ ht _ _ ih₁ ih₂ =>
    intro x hx
    rw [List.mem_cons, List.mem_append] at hx
    rcases hx with rfl | hx | hx
    · exact ⟨_, ht⟩
    · exact ih₁ x hx
    · exact ih₂ x hx

/-- Ownership depends on the owned tuples and on where tuples are in the heap only. -/
theorem congr (h : s.Owns cells ids) (hsame : ∀ x ∈ ids, s'.tuple? x = s.tuple? x)
    (hheap : s.heap.Retains s'.heap) : s'.Owns cells ids := by
  induction h with
  | nil => exact .nil
  | loose hc _ ih => exact .loose (hc.retains hheap) (ih hsame)
  | tuple hown hv ht _ _ ih₁ ih₂ =>
    refine .tuple hown (hv.retains hheap) ?_ (ih₁ fun x hx => hsame x ?_)
      (ih₂ fun x hx => hsame x ?_)
    · rw [hsame _ (by simp), ht]
    · simp [hx]
    · simp [hx]

/-- Lists of cells own what their parts own. -/
theorem append (h : s.Owns cells ids) (h' : s.Owns cells' ids') :
    s.Owns (cells ++ cells') (ids ++ ids') := by
  induction h with
  | nil => exact h'
  | loose hc _ ih => exact .loose hc ih
  | tuple hown hv ht hin _ _ ih => simpa using Owns.tuple hown hv ht hin ih

/-- The tuples owned by a list of cells are those of its parts. -/
theorem of_append (h : s.Owns (cells ++ cells') ids) :
    ∃ i j, ids = i ++ j ∧ s.Owns cells i ∧ s.Owns cells' j := by
  induction cells generalizing ids with
  | nil => exact ⟨[], ids, rfl, .nil, h⟩
  | cons c cells ih =>
    cases h with
    | loose hc h =>
      obtain ⟨i, j, rfl, hi, hj⟩ := ih h
      exact ⟨i, j, rfl, .loose hc hi, hj⟩
    | @tuple _ _ id _ inner _ hown hv ht hin h =>
      obtain ⟨i, j, rfl, hi, hj⟩ := ih h
      exact ⟨id :: (inner ++ i), j, by simp, .tuple hown hv ht hin hi, hj⟩

/-- The order of the cells does not matter. -/
theorem perm (h : s.Owns cells ids) (hp : cells.Perm cells') :
    ∃ ids', ids.Perm ids' ∧ s.Owns cells' ids' := by
  induction hp generalizing ids with
  | nil => exact ⟨ids, .refl _, h⟩
  | @cons c l₁ l₂ _ ih =>
    obtain ⟨i, j, rfl, hi, hj⟩ := of_append (show s.Owns ([c] ++ l₁) ids from h)
    obtain ⟨j', hperm, hj'⟩ := ih hj
    exact ⟨i ++ j', hperm.append_left i, append hi hj'⟩
  -- two cells that change places take their tuples along
  | swap c d l =>
    obtain ⟨i, j, rfl, hi, hj⟩ := of_append (show s.Owns ([d, c] ++ l) ids from h)
    obtain ⟨i₁, i₂, rfl, h₁, h₂⟩ := of_append (show s.Owns ([d] ++ [c]) i from hi)
    exact ⟨(i₂ ++ i₁) ++ j, (List.perm_append_comm).append_right j, (h₂.append h₁).append hj⟩
  | trans _ _ ih₁ ih₂ =>
    obtain ⟨i, hp₁, hi⟩ := ih₁ h
    obtain ⟨j, hp₂, hj⟩ := ih₂ hi
    exact ⟨j, hp₁.trans hp₂, hj⟩

end Owns

/-! ## Giving cells up -/

/-- Replacing a live tuple by another keeps the store sound. -/
theorem Sound.putTuple {s : Store} {id : TupleId} {t : Tuple} (hs : s.Sound)
    (ht : s.tuple? id = some t) (t' : Tuple) : (s.putTuple id t').Sound := by
  refine ⟨hs.arena.put id t', ?_⟩
  obtain ⟨r, hr⟩ := hs.root_live
  by_cases hroot : s.root = id
  · exact ⟨t', by simp [tuple?, Store.putTuple, Arena.get?_put ht, hroot]⟩
  · refine ⟨r, ?_⟩
    simpa [tuple?, Store.putTuple, Arena.get?_put ht, hroot] using hr

/-- What ids stand for once a live tuple was replaced. -/
theorem tuple?_putTuple {s : Store} {id : TupleId} {t : Tuple} (ht : s.tuple? id = some t)
    (t' : Tuple) (x : TupleId) :
    (s.putTuple id t').tuple? x = if x = id then some t' else s.tuple? x :=
  Arena.get?_put ht t' x

/-- Where releasing the cells of a tuple destroys the tuples `inner`, destroying the tuple destroys
these and the tuple itself. -/
theorem tuple?_destroy {s : Store} {id : TupleId} {t : Tuple} {inner : List TupleId} (hs : s.Sound)
    (hroot : s.root ∉ id :: inner) (ht : s.tuple? id = some t) (hid : id ∉ inner)
    (hcells : ((s.putTuple id t.drain.2).releaseAll t.drain.1).Sound ∧
      ∀ x, ((s.putTuple id t.drain.2).releaseAll t.drain.1).tuple? x =
        if x ∈ inner then none else (s.putTuple id t.drain.2).tuple? x) :
    (s.destroy id).Sound ∧
      ∀ x, (s.destroy id).tuple? x = if x ∈ id :: inner then none else s.tuple? x := by
  have hne : id ≠ s.root := fun h => hroot (by simp [h])
  rw [destroy_eq hne ht]
  have hput := tuple?_putTuple ht t.drain.2
  have hbut := sameButArena_releaseAll (s.putTuple id t.drain.2) t.drain.1
  generalize (s.putTuple id t.drain.2).releaseAll t.drain.1 = released at hcells hbut ⊢
  obtain ⟨hsound, hget⟩ := hcells
  have hlive : released.tuple? id = some t.drain.2 := by
    rw [hget, if_neg hid, hput, if_pos rfl]
  -- the tuples inside are gone before the slot is vacated, and then this one is
  have hgone : ∀ x, (released.arena.vacate id.index).get? x =
      if x ∈ id :: inner then none else s.tuple? x := by
    intro x
    rw [Arena.get?_vacate hlive]
    by_cases hx : x = id
    · simp [hx]
    · rw [if_neg hx, show released.arena.get? x = released.tuple? x from rfl, hget, hput, if_neg hx]
      simp [hx]
  refine ⟨⟨hsound.arena.vacate hlive, ?_⟩, hgone⟩
  obtain ⟨r, hr⟩ := hs.root_live
  refine ⟨r, ?_⟩
  rw [show released.root = s.root from hbut.root]
  exact (hgone s.root).trans (by rw [if_neg hroot, hr])

/-- Giving up cells destroys the tuples that they own and leaves all others as they are. -/
theorem Owns.tuple?_releaseAll {s : Store} {cells : List Cell} {ids : List TupleId}
    (h : s.Owns cells ids) (hs : s.Sound) (hnodup : ids.Nodup) (hroot : s.root ∉ ids) :
    (s.releaseAll cells).Sound ∧
      ∀ x, (s.releaseAll cells).tuple? x = if x ∈ ids then none else s.tuple? x := by
  -- the cells of an emptied tuple are released in a store that differs from `s` in that tuple
  suffices hgen : ∀ s' : Store, s'.Sound → s'.heap = s.heap → s'.root = s.root →
      (∀ x ∈ ids, s'.tuple? x = s.tuple? x) → (s'.releaseAll cells).Sound ∧
        ∀ x, (s'.releaseAll cells).tuple? x = if x ∈ ids then none else s'.tuple? x by
    exact hgen s hs rfl rfl fun _ _ => rfl
  clear hs
  induction h with
  | nil => exact fun s' hs' _ _ _ => ⟨hs', by simp [releaseAll]⟩
  | loose hc _ ih =>
    intro s' hs' hheap hr hsame
    have hnone := (hheap ▸ hc).ownedTuple?
    simpa [releaseAll, release, hnone] using ih hnodup hroot s' hs' hheap hr hsame
  | @tuple c cells id t inner ids hown hv ht _ _ ih₁ ih₂ =>
    intro s' hs' hheap hr hsame
    rw [List.nodup_cons, List.nodup_append] at hnodup
    obtain ⟨hid, hinner, hids, hdisj⟩ := hnodup
    simp only [List.mem_append, not_or] at hid
    simp only [List.mem_cons, List.mem_append, not_or] at hroot
    have ht' : s'.tuple? id = some t := by rw [hsame id (by simp), ht]
    have hput := tuple?_putTuple ht' t.drain.2
    have hcells := ih₁ hinner hroot.2.1 (s'.putTuple id t.drain.2) (hs'.putTuple ht' _) hheap hr (by
      intro x hx
      have hx' : x ≠ id := fun h => hid.1 (h ▸ hx)
      rw [hput, if_neg hx', hsame x (by simp [hx])])
    obtain ⟨hs₁, hget₁⟩ := tuple?_destroy hs' (by simp [hr, hroot.1, hroot.2.1]) ht' hid.1 hcells
    have hbut := sameButArena_destroyWithin (s'.arena.entryCount + 1) s' id
    obtain ⟨hs₂, hget₂⟩ := ih₂ hids hroot.2.2 (s'.destroy id) hs₁ (hbut.heap.trans hheap)
      (hbut.root.trans hr) (by
        intro x hx
        have hx' : x ∉ id :: inner := by
          simp only [List.mem_cons, not_or]
          exact ⟨fun h => hid.2 (h ▸ hx), fun h => hdisj x h x hx rfl⟩
        rw [hget₁, if_neg hx', hsame x (by simp [hx])])
    have hrelease : s'.releaseAll (c :: cells) = (s'.destroy id).releaseAll cells := by
      have hvalue : c.value s'.heap = .tuple id := by rw [hheap, hv.value_eq]
      simp [releaseAll, release, Cell.ownedTuple?, Cell.tupleId?, hown, hvalue, Value.tupleId?]
    rw [hrelease]
    refine ⟨hs₂, fun x => ?_⟩
    rw [hget₂, hget₁]
    by_cases hx : x ∈ ids
    · simp [hx]
    · simp [hx, List.mem_append]

/-! ## Trades -/

/-- The store `s'` is `s` with the tuples `old` exchanged for the tuples `new`: all other tuples are
as they were, those of `old` that are not in `new` are gone, and what `new` has besides `old` was
not live before. -/
structure Trade (s : Store) (old : List TupleId) (s' : Store) (new : List TupleId) : Prop where
  sound : s'.Sound
  same : ∀ x, x ∉ old → x ∉ new → s'.tuple? x = s.tuple? x
  gone : ∀ x ∈ old, x ∉ new → s'.tuple? x = none
  fresh : ∀ x ∈ new, x ∉ old → s.tuple? x = none
  heap : s.heap.Grows s'.heap
  root : s'.root = s.root
  forms : s'.forms = s.forms
  settings : s'.settings = s.settings

namespace Trade

variable {s s' s'' : Store} {old new new' keep : List TupleId}

/-- Nothing changes hands. -/
protected theorem refl (hs : s.Sound) (ids : List TupleId) : s.Trade ids s ids where
  sound := hs
  same _ _ _ := rfl
  gone _ hx hx' := absurd hx hx'
  fresh _ hx hx' := absurd hx hx'
  heap := .refl _
  root := rfl
  forms := rfl
  settings := rfl

/-- Trades compose. -/
protected theorem trans (h₁ : s.Trade old s' new) (h₂ : s'.Trade new s'' new') :
    s.Trade old s'' new' where
  sound := h₂.sound
  same x hx hx' := by
    by_cases hn : x ∈ new
    · rw [h₂.gone x hn hx', h₁.fresh x hn hx]
    · rw [h₂.same x hn hx', h₁.same x hx hn]
  gone x hx hx' := by
    by_cases hn : x ∈ new
    · exact h₂.gone x hn hx'
    · rw [h₂.same x hn hx', h₁.gone x hx hn]
  fresh x hx hx' := by
    by_cases hn : x ∈ new
    · exact h₁.fresh x hn hx'
    · rw [← h₁.same x hx' hn, h₂.fresh x hx hn]
  heap := h₁.heap.trans h₂.heap
  root := h₂.root.trans h₁.root
  forms := h₂.forms.trans h₁.forms
  settings := h₂.settings.trans h₁.settings

/-- Only the members of the two lists matter. -/
theorem congr {old' : List TupleId} (h : s.Trade old s' new) (hold : ∀ x, x ∈ old ↔ x ∈ old')
    (hnew : ∀ x, x ∈ new ↔ x ∈ new') : s.Trade old' s' new' where
  sound := h.sound
  same x hx hx' := h.same x (by rwa [hold]) (by rwa [hnew])
  gone x hx hx' := h.gone x (by rwa [hold]) (by rwa [hnew])
  fresh x hx hx' := h.fresh x (by rwa [hnew]) (by rwa [hold])
  heap := h.heap
  root := h.root
  forms := h.forms
  settings := h.settings

/-- Live tuples that are not part of a trade are not handed out by it. -/
theorem not_mem_new (h : s.Trade old s' new) {x : TupleId} {t : Tuple} (hx : s.tuple? x = some t)
    (hold : x ∉ old) : x ∉ new := by
  intro hn
  simp [h.fresh x hn hold] at hx

/-- What somebody else owns stays as it is. -/
theorem keeps (h : s.Trade old s' new) {cells : List Cell} (hown : s.Owns cells keep)
    (hdisj : ∀ x ∈ keep, x ∉ old) : s'.Owns cells keep := by
  refine hown.congr (fun x hx => ?_) h.heap.retains
  obtain ⟨t, ht⟩ := hown.live x hx
  exact h.same x (hdisj x hx) (h.not_mem_new ht (hdisj x hx))

/-- A trade goes on beside tuples that it does not touch. -/
theorem frame (h : s.Trade old s' new) (keep : List TupleId) :
    s.Trade (keep ++ old) s' (keep ++ new) where
  sound := h.sound
  same x hx hx' := by
    simp only [List.mem_append, not_or] at hx hx'
    exact h.same x hx.2 hx'.2
  gone x hx hx' := by
    simp only [List.mem_append, not_or] at hx hx'
    exact h.gone x (hx.resolve_left hx'.1) hx'.2
  fresh x hx hx' := by
    simp only [List.mem_append, not_or] at hx hx'
    exact h.fresh x (hx.resolve_left hx'.1) hx'.2
  heap := h.heap
  root := h.root
  forms := h.forms
  settings := h.settings

end Trade

/-- Every tuple of `s` is live in `s'` and as it was, with the values of its cells. -/
structure Extends (s s' : Store) : Prop where
  tuples : ∀ id t, s.tuple? id = some t → s'.tuple? id = some t
  values : s.heap.Grows s'.heap

/-- The stores have the same live tuples, all of them as they were, with the values of their cells;
root scope, text forms and settings are the same. -/
structure Unchanged (s s' : Store) : Prop where
  tuples : ∀ id, s'.tuple? id = s.tuple? id
  values : s.heap.Grows s'.heap
  root : s'.root = s.root
  forms : s'.forms = s.forms
  settings : s'.settings = s.settings

/-- Who holds nothing at first touches no live tuple. -/
theorem Trade.extends {s s' : Store} {new : List TupleId} (h : s.Trade [] s' new) :
    s.Extends s' where
  tuples id t ht := by rw [h.same id (by simp) (h.not_mem_new ht (by simp)), ht]
  values := h.heap

/-- Who holds nothing at first and nothing in the end has changed nothing. -/
theorem Trade.unchanged {s s' : Store} (h : s.Trade [] s' []) : s.Unchanged s' where
  tuples id := h.same id (by simp) (by simp)
  values := h.heap
  root := h.root
  forms := h.forms
  settings := h.settings

/-! ## Held cells -/

/-- The cells, in any order, own exactly the tuples `ids`, each of them once, and not the root. -/
structure Holds (s : Store) (cells : Multiset Cell) (ids : List TupleId) : Prop where
  owns : ∃ l : List Cell, (l : Multiset Cell) = cells ∧ s.Owns l ids
  nodup : ids.Nodup
  root : s.root ∉ ids

namespace Holds

variable {s s' : Store} {cells cells' : Multiset Cell} {ids old new : List TupleId}

/-- Nothing is held. -/
protected theorem zero (s : Store) : s.Holds 0 [] := ⟨⟨[], rfl, .nil⟩, List.nodup_nil, by simp⟩

/-- What cells own can be read off them in any order. -/
theorem owns_list (h : s.Holds cells ids) {l : List Cell} (hl : (l : Multiset Cell) = cells) :
    ∃ ids', ids.Perm ids' ∧ s.Owns l ids' := by
  obtain ⟨l', hl', hown⟩ := h.owns
  exact hown.perm (Multiset.coe_eq_coe.mp (hl'.trans hl.symm))

/-- A cell without a tuple can be held as well. -/
theorem loose (h : s.Holds cells ids) {c : Cell} (hc : c.Loose s.heap) :
    s.Holds (c ::ₘ cells) ids := by
  obtain ⟨l, rfl, hown⟩ := h.owns
  exact ⟨⟨c :: l, rfl, .loose hc hown⟩, h.nodup, h.root⟩

/-- A cell without a tuple need not be held. -/
theorem drop {c : Cell} (h : s.Holds (c ::ₘ cells) ids) (hc : c.Loose s.heap) :
    s.Holds cells ids := by
  obtain ⟨l, hl, hown⟩ := h.owns
  obtain ⟨before, after, rfl⟩ := List.append_of_mem (show c ∈ l by
    rw [← Multiset.mem_coe, hl]
    exact Multiset.mem_cons_self c cells)
  obtain ⟨i, j, rfl, hi, hj⟩ := hown.of_append
  -- a loose cell owns nothing, so all tuples belong to the others
  have hrest : s.Owns after j := by
    cases hj with
    | loose _ hrest => exact hrest
    | tuple howned hv _ _ _ =>
      have hnone := hc.ownedTuple?
      simp [Cell.ownedTuple?, howned, Cell.tupleId?, hv.value_eq, Value.tupleId?] at hnone
  refine ⟨⟨before ++ after, ?_, hi.append hrest⟩, h.nodup, h.root⟩
  have hperm : (before ++ c :: after).Perm (c :: (before ++ after)) := List.perm_middle
  rw [Multiset.coe_eq_coe.mpr hperm, ← Multiset.cons_coe] at hl
  exact (Multiset.cons_inj_right c).mp hl

/-- What is held falls into parts. -/
theorem split (h : s.Holds (cells + cells') ids) :
    ∃ i j, ids.Perm (i ++ j) ∧ s.Holds cells i ∧ s.Holds cells' j := by
  obtain ⟨l, rfl⟩ := Quotient.exists_rep cells
  obtain ⟨l', rfl⟩ := Quotient.exists_rep cells'
  obtain ⟨ids', hperm, hown⟩ := h.owns_list (l := l ++ l') rfl
  obtain ⟨i, j, rfl, hi, hj⟩ := hown.of_append
  have hnodup := hperm.nodup_iff.mp h.nodup
  have hroot : s.root ∉ i ++ j := fun hr => h.root (hperm.mem_iff.mpr hr)
  rw [List.mem_append, not_or] at hroot
  exact ⟨i, j, hperm, ⟨⟨l, rfl, hi⟩, hnodup.of_append_left, hroot.1⟩,
    ⟨⟨l', rfl, hj⟩, hnodup.of_append_right, hroot.2⟩⟩

/-- Parts that share no tuple are held together. -/
theorem add {ids' : List TupleId} (h : s.Holds cells ids) (h' : s.Holds cells' ids')
    (hdisj : ∀ x ∈ ids, x ∉ ids') : s.Holds (cells + cells') (ids ++ ids') := by
  obtain ⟨l, rfl, hown⟩ := h.owns
  obtain ⟨l', rfl, hown'⟩ := h'.owns
  refine ⟨⟨l ++ l', rfl, hown.append hown'⟩, ?_, ?_⟩
  · exact List.nodup_append.mpr ⟨h.nodup, h'.nodup, fun x hx y hy hxy => hdisj x hx (hxy ▸ hy)⟩
  · simp [h.root, h'.root]

/-- What is held beside a trade stays held. -/
theorem keeps (h : s.Holds cells ids) (ht : s.Trade old s' new) (hdisj : ∀ x ∈ ids, x ∉ old) :
    s'.Holds cells ids := by
  obtain ⟨l, rfl, hown⟩ := h.owns
  exact ⟨⟨l, rfl, ht.keeps hown hdisj⟩, h.nodup, by rw [ht.root]; exact h.root⟩

/-- Held tuples are live. -/
theorem live (h : s.Holds cells ids) : ∀ x ∈ ids, ∃ t, s.tuple? x = some t := by
  obtain ⟨l, -, hown⟩ := h.owns
  exact hown.live

/-- Giving up held cells trades what they own for nothing. -/
theorem releaseAll (h : s.Holds cells ids) (hs : s.Sound) {l : List Cell}
    (hl : (l : Multiset Cell) = cells) : s.Trade ids (s.releaseAll l) [] := by
  obtain ⟨ids', hperm, hown⟩ := h.owns_list hl
  have hroot : s.root ∉ ids' := fun hr => h.root (hperm.mem_iff.mpr hr)
  obtain ⟨hsound, hget⟩ := hown.tuple?_releaseAll hs (hperm.nodup_iff.mp h.nodup) hroot
  have hbut := sameButArena_releaseAll s l
  exact
    { sound := hsound
      same := fun x hx _ => by rw [hget, if_neg (fun h => hx (hperm.mem_iff.mpr h))]
      gone := fun x hx _ => by rw [hget, if_pos (hperm.mem_iff.mp hx)]
      fresh := fun x hx => absurd hx (by simp)
      heap := hbut.heap ▸ .refl _
      root := hbut.root
      forms := hbut.forms
      settings := hbut.settings }

end Holds

end Store

end TupleLang
