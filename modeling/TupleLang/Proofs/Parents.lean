import TupleLang.Proofs.Identity
import TupleLang.Proofs.Scalars

/-!
# Scopes around contained tuples

A tuple that another one holds has that one as the scope around it, if whoever puts it there says
so. Building and copying tuples do. An assignment leaves the scope of the tuple that it moves as it
was (`assigned_tuple_keeps_its_scope`). All other evaluation keeps scopes in place, so that it does
where nothing but scalars are assigned to scalars (`evaluate_keeps_scopes`).
-/

namespace TupleLang

/-- A place in use stays so, with the tuple in it if there is one. -/
theorem Cell.Grounded.retains {s : Store} {heap : Heap} {c : Cell} (hc : c.Grounded s)
    (hheap : s.heap.Retains heap) : c.Grounded { s with heap } := by
  obtain ⟨v, hv, hissued⟩ := hc
  obtain ⟨v', hv', hid⟩ := hheap _ _ hv
  exact ⟨v', hv', fun id h => hissued id (hid ▸ h)⟩

namespace Store

variable {s : Store}

/-- Tuples that were made on the way enclose what they own, and all others own what they did. -/
theorem Makes.encloses_all {s' : Store} {ids : List TupleId} (h : s.Makes s' ids)
    (hgrounded : ∀ x t, s.tuple? x = some t → ∀ e ∈ t.entries, e.cell.Grounded s)
    (hencloses : ∀ x, s.Encloses x) (hyoung : s.arena.Young) (x : TupleId) : s'.Encloses x := by
  by_cases hx : x ∈ ids
  · exact h.encloses x hx
  intro t ht e he y u hy hu
  rw [h.trade.same x (by simp) hx] at ht
  obtain ⟨v, hv, hissued⟩ := hgrounded x t ht e he
  have hid : v.tupleId? = some y :=
    (hv.grows h.trade.heap).tupleId?_eq ▸ Cell.tupleId?_of_ownedTuple? hy
  have hy : e.cell.ownedTuple? s.heap = some y := by
    rw [← hy, Cell.ownedTuple?, Cell.ownedTuple?, hv.tupleId?_eq,
      (hv.grows h.trade.heap).tupleId?_eq]
  cases hlive : s.tuple? y with
  | none =>
    -- an id that was issued before does not come to life again
    have hdead : s'.tuple? y = none :=
      h.ages.get?_eq_none (h.young hyoung) (hissued y hid) hlive
    rw [hdead] at hu
    cases hu
  | some u' =>
    rw [h.trade.same y (by simp) (h.trade.not_mem_new hlive (by simp)), hlive] at hu
    cases hu
    exact hencloses x t ht e he y u hy hlive

/-- A tuple encloses what its attributes own in every heap that has the tuples in the same places.
-/
theorem Encloses.retains {x : TupleId} (h : s.Encloses x)
    (hgrounded : ∀ t, s.tuple? x = some t → ∀ e ∈ t.entries, e.cell.Grounded s)
    {heap : Heap} (hheap : s.heap.Retains heap) : ({ s with heap } : Store).Encloses x := by
  intro t ht e he y u hy hu
  obtain ⟨v, hv, -⟩ := hgrounded t ht e he
  obtain ⟨v', hv', hid⟩ := hheap _ _ hv
  have hsame : e.cell.tupleId? heap = e.cell.tupleId? s.heap :=
    (Cell.Stores.tupleId?_eq hv').trans (hid.trans hv.tupleId?_eq.symm)
  refine h t ht e he y u ?_ hu
  rw [← hy, Cell.ownedTuple?, Cell.ownedTuple?, hsame]

/-- Evaluating an expression that assigns nothing but scalars to scalars keeps every tuple the scope
around the tuples that its attributes own. -/
theorem evaluate_keeps_scopes (hs : s.Sound) (hyoung : s.arena.Young)
    (hgrounded : ∀ x t, s.tuple? x = some t → ∀ e ∈ t.entries, e.cell.Grounded s)
    (hencloses : ∀ x, s.Encloses x) (host : Host) (e : Expression)
    (hscalars : ∀ n ∈ e.roots, n.AssignsScalars s.heap) :
    ∀ outcomes after, e.evaluate host s = .ok outcomes after → ∀ x, after.Encloses x := by
  intro outcomes after hrun
  obtain ⟨hheap, lost, ids, -, hmakes⟩ := conveys_evaluateRoots hscalars hs (.refl _) hrun
  exact hmakes.encloses_all (fun x t ht e he => (hgrounded x t ht e he).retains hheap)
    (fun x => (hencloses x).retains (hgrounded x) hheap) hyoung

/-- A root scope that knows assignment and two types, with a box and a shelf that the box is on. -/
def shelfStore : Store :=
  (Operation.createFrom .dynamic (some ⟨0, 0⟩) [(some "v", boxType, .tuple ⟨1, 0⟩)]).perform.after
    ((Operation.createFrom .plain (some ⟨0, 0⟩)
      [(some "x", .leaf "bool", .bool false)]).perform.after
      ((StoreM.registerType ⟨0, 0⟩ "crate" crateType).after
        ((StoreM.registerType ⟨0, 0⟩ "box" boxType).after ((bare {}).define assignment))))

/-- All slots of the store are in use. -/
theorem shelfStore_sound : shelfStore.Sound := ⟨Arena.sound_of_full (by rfl) (by rfl), _, by rfl⟩

theorem shelfStore_stocked : shelfStore.Stocked := by
  have hslots : shelfStore.arena.slots.toList.map (·.tuple.map (·.actions.map (·.2))) =
      [some [assignment, .constructorFor "box" boxType, .constructorFor "crate" crateType],
        some [], some []] := by rfl
  refine stocked_of_slots hslots fun l hl a ha => ?_
  simp only [List.mem_cons, List.not_mem_nil, or_false, Option.some_inj] at hl
  rcases hl with rfl | rfl | rfl
  · simp only [List.mem_cons, List.not_mem_nil, or_false] at ha
    rcases ha with rfl | rfl | rfl
    · exact .inl (List.mem_append_right _ List.mem_cons_self)
    · exact .inr ⟨_, _, rfl⟩
    · exact .inr ⟨_, _, rfl⟩
  · simp at ha
  · simp at ha

/-- The attributes of the tuples of the store. -/
theorem shelfStore_cases {x : TupleId} {t : Tuple} (h : shelfStore.tuple? x = some t) :
    t.entries = [] ∨ t.entries = [⟨some "x", { type := .leaf "bool", loc := 0 }⟩] ∨
      x = ⟨2, 0⟩ ∧ t.entries = [⟨some "v", { type := boxType, loc := 1 }⟩] := by
  obtain ⟨index, generation⟩ := x
  obtain ⟨n, hslot, hgen⟩ := Arena.get?_eq_some_iff.mp h
  have hslots : shelfStore.arena.slots.toList.map
        (fun slot => (slot.vacated, slot.tuple.map (·.entries))) =
      [(0, some []), (0, some [⟨some "x", { type := .leaf "bool", loc := 0 }⟩]),
        (0, some [⟨some "v", { type := boxType, loc := 1 }⟩])] := by rfl
  have hentry := congrArg (·[index]?) hslots
  simp only [List.getElem?_map, Array.getElem?_toList, hslot, Option.map_some] at hentry
  match index with
  | 0 => exact .inl (Option.some_inj.mp (congrArg Prod.snd (Option.some_inj.mp hentry)))
  | 1 => exact .inr (.inl (Option.some_inj.mp (congrArg Prod.snd (Option.some_inj.mp hentry))))
  | 2 =>
    obtain ⟨rfl, hentries⟩ := Prod.mk.inj (Option.some_inj.mp hentry)
    cases hgen
    exact .inr (.inr ⟨rfl, Option.some_inj.mp hentries⟩)
  | index + 3 => cases hentry

/-- The box on the shelf has the shelf around it, also when more has been put into the heap. -/
theorem shelf_encloses {s : Store} (harena : s.arena = shelfStore.arena)
    (hheap : shelfStore.heap.Grows s.heap) :
    (∀ x t, s.tuple? x = some t → ∀ e ∈ t.entries, e.cell.Grounded s) ∧ ∀ x, s.Encloses x := by
  -- parsing has added places, and changed no tuple
  have htuple : ∀ x, s.tuple? x = shelfStore.tuple? x := fun x => by rw [tuple?, tuple?, harena]
  have hflag : s.heap.values[0]? = some (.bool false) := hheap 0 _ (by rfl)
  have hbox : s.heap.values[1]? = some (.tuple ⟨1, 0⟩) := hheap 1 _ (by rfl)
  refine ⟨fun x t ht e he => ?_, fun x t ht e he y u hy hu => ?_⟩
  · rw [htuple] at ht
    -- a tuple of the store has no attributes, a truth value or the box
    rcases shelfStore_cases ht with hentries | hentries | ⟨-, hentries⟩
    · simp [hentries] at he
    · rw [hentries, List.mem_singleton] at he
      rw [he]
      refine ⟨_, hflag, fun id hid => ?_⟩
      cases hid
    · rw [hentries, List.mem_singleton] at he
      rw [he]
      refine ⟨_, hbox, fun id hid => ?_⟩
      cases hid
      rw [harena]
      exact Arena.issued_of_live (t := _) (by rfl)
  · rw [htuple] at ht hu
    rcases shelfStore_cases ht with hentries | hentries | ⟨rfl, hentries⟩
    · simp [hentries] at he
    · rw [hentries, List.mem_singleton] at he
      rw [he, Cell.ownedTuple?, Cell.tupleId?, Cell.value, Heap.get, hflag] at hy
      cases hy
    · rw [hentries, List.mem_singleton] at he
      rw [he, Cell.ownedTuple?, Cell.tupleId?, Cell.value, Heap.get, hbox] at hy
      cases hy
      have hparent : (shelfStore.tuple? ⟨1, 0⟩).map (·.parent) = some (some ⟨2, 0⟩) := by rfl
      rw [hu, Option.map_some, Option.some_inj] at hparent
      exact hparent

/-- Parsing `crate(v, false)` on the shelf. -/
def copyParse : Parsed (Except Error Expression) :=
  Expression.parse shelfStore ⟨2, 0⟩ (Cursor.ofTokens
    [⟨.ident, "crate", {}⟩, ⟨.lparen, "(", {}⟩, ⟨.ident, "v", {}⟩, ⟨.comma, ",", {}⟩,
      ⟨.falseWord, "false", {}⟩, ⟨.rparen, ")", {}⟩])

/-- The expression `crate(v, false)`. -/
def copyCall : Expression where
  roots := [.apply { op := .call, name := "crate", action := .constructorFor "crate" crateType
                     type := crateType, argNames := [none, none] }
    [.value { type := boxType, loc := 1, owned := false } (some "v"),
     .literal { type := .leaf "bool", loc := 2 }]]
  scope := ⟨2, 0⟩

/-- The call makes a copy and assigns nothing. -/
theorem copyCall_assignsScalars {h : Heap} : ∀ n ∈ copyCall.roots, n.AssignsScalars h := by
  intro n hn
  rw [List.mem_singleton.mp hn]
  refine Node.Quiet.assignsScalars (.apply rfl fun n hn => ?_)
  rcases List.mem_pair.mp hn with rfl | rfl
  · exact .value trivial
  · exact .value trivial

/-- A copy of the box on the shelf is put into a crate, which is then the scope around it. -/
theorem evaluate_keeps_scopes_copy :
    copyParse.store.Sound ∧ copyParse.result = .ok copyCall ∧
      (∀ n ∈ copyCall.roots, n.AssignsScalars copyParse.store.heap) ∧
      copyParse.store.arena.Young ∧ (∀ x, copyParse.store.Encloses x) ∧
      ∃ outcomes after, copyCall.evaluate .none copyParse.store = .ok outcomes after ∧
        (after.tuple? ⟨3, 0⟩).isSome ∧ ∀ x, after.Encloses x := by
  have hparsed : copyParse.result = .ok copyCall := by rfl
  obtain ⟨_, -, htrade⟩ := reaches_parse shelfStore_sound hparsed
  obtain ⟨hgrounded, hencloses⟩ := shelf_encloses (s := copyParse.store) (by rfl) htrade.heap
  have hyoung : copyParse.store.arena.Young := by
    intro i slot hslot
    have hall : copyParse.store.arena.slots.all (·.vacated < 2 ^ 32) = true := by decide +kernel
    exact of_decide_eq_true (Array.all_eq_true_iff_forall_mem.mp hall slot
      (Array.mem_of_getElem? hslot))
  have hmade : passes (copyCall.evaluate .none) copyParse.store
      (fun _ after => (after.tuple? ⟨3, 0⟩).isSome) = true := by decide +kernel
  obtain ⟨outcomes, after, hrun, hcrate⟩ := passes_iff.mp hmade
  exact ⟨htrade.sound, hparsed, copyCall_assignsScalars, hyoung, hencloses, outcomes, after, hrun,
    hcrate, evaluate_keeps_scopes htrade.sound hyoung hgrounded hencloses .none copyCall
      copyCall_assignsScalars outcomes after hrun⟩

/-- Parsing `v = box(true)` on the shelf. -/
def shelfParse : Parsed (Except Error Expression) :=
  Expression.parse shelfStore ⟨2, 0⟩ (Cursor.ofTokens
    ([⟨.ident, "v", {}⟩, ⟨.symbol, "=", {}⟩] ++ boxTokens))

/-- The expression `v = box(true)`. -/
def shelfAssignment : Expression where
  roots := [.apply { op := .assign, name := "=", action := assignment, type := boxType }
    [.value { type := boxType, loc := 1, owned := false } (some "v"),
      .apply { op := .call, name := "box", action := .constructorFor "box" boxType, type := boxType
               argNames := [none] } [.literal { type := .leaf "bool", loc := 2 }]]]
  scope := ⟨2, 0⟩

/-- A box that is assigned to the variable on the shelf has the root scope around it, and not the
shelf. -/
theorem assigned_tuple_keeps_its_scope :
    shelfStore.Sound ∧ shelfStore.Stocked ∧ shelfParse.result = .ok shelfAssignment ∧
      (∀ x, shelfParse.store.Encloses x) ∧
      ∃ outcomes after, shelfAssignment.evaluate .none shelfParse.store = .ok outcomes after ∧
        ¬after.Encloses ⟨2, 0⟩ := by
  have hparsed : shelfParse.result = .ok shelfAssignment := by rfl
  obtain ⟨_, -, htrade⟩ := reaches_parse shelfStore_sound hparsed
  obtain ⟨-, hencloses⟩ := shelf_encloses (s := shelfParse.store) (by rfl) htrade.heap
  -- after the assignment the shelf owns the new box, whose scope is still the root
  have hmoved : passes (shelfAssignment.evaluate .none) shelfParse.store (fun _ after =>
      (after.tuple? ⟨2, 0⟩).map (fun t => t.entries.map (·.cell.ownedTuple? after.heap)) =
          some [some ⟨3, 0⟩] ∧
        (after.tuple? ⟨3, 0⟩).map (·.parent) = some (some ⟨0, 0⟩)) = true := by decide +kernel
  obtain ⟨outcomes, after, hrun, hmoved⟩ := passes_iff.mp hmoved
  rw [decide_eq_true_iff, Option.map_eq_some_iff, Option.map_eq_some_iff] at hmoved
  obtain ⟨⟨t, ht, hentries⟩, u, hu, hparent⟩ := hmoved
  refine ⟨shelfStore_sound, shelfStore_stocked, hparsed, hencloses, outcomes, after, hrun,
    fun h => ?_⟩
  obtain ⟨e, he, hown⟩ := List.mem_map.mp (hentries ▸ List.mem_singleton_self _)
  have hshelf := h t ht e he ⟨3, 0⟩ u hown hu
  rw [hparent] at hshelf
  cases hshelf

end Store

end TupleLang
