import TupleLang.Proofs.Scoping
import TupleLang.Proofs.Tables

/-!
# Lookups

A name is looked up in a tuple, in the tuple around that, and so on, along the parents until one is
no longer live (`Store.ancestor?`). Nothing keeps the parents from running in a circle, so the scope
chain is cut at the number of slots. Up to there it is the walk along the parents, step by step
(`Store.getElem?_scopeChain`). What can be found on the walk at all is found before the cut: by the
time a walk has come to as many tuples as there are slots, it has met every tuple that it will ever
meet. So lookups give the nearest attribute or type of a name as if there were no cut
(`Store.lookups_see_the_whole_walk`).
-/

namespace TupleLang

/-- Position and index agree on where an attribute of a name is. -/
theorem Tuple.position_name_eq_ok {t : Tuple} {name : String} {p : Nat} :
    t.position (.name name) = .ok p ↔ t.index.lookup name = some p := by
  cases hlookup : t.index.lookup name <;> simp [Tuple.position, hlookup]

namespace Store

variable {α : Type} {s : Store} {id x : TupleId} {name : String}

/-! ## The chain is the walk, up to the cut -/

/-- The members of a chain are the ancestors, as far as it goes. -/
theorem getElem?_chainWithin (n k : Nat) :
    (s.chainWithin n id)[k]? = if k < n then s.ancestor? k id else none := by
  induction n generalizing id k with
  | zero => simp [chainWithin]
  | succ n ih =>
    rw [chainWithin]
    cases ht : s.tuple? id with
    | none => cases k <;> simp [ancestor?, ht]
    | some t =>
      cases hparent : t.parent with
      | none => cases k <;> simp [ancestor?, ht, hparent]
      | some parent => cases k <;> simp [ancestor?, ht, hparent, ih]

/-- The members of a scope chain are the ancestors, up to the number of slots. -/
theorem getElem?_scopeChain (k : Nat) :
    (s.scopeChain id)[k]? = if k < s.arena.slots.size then s.ancestor? k id else none :=
  getElem?_chainWithin _ _

/-- What stands in the chain is on the walk. -/
theorem ancestor?_of_getElem? {k : Nat} (h : (s.scopeChain id)[k]? = some x) :
    s.ancestor? k id = some x := by
  rw [getElem?_scopeChain] at h
  exact (Option.ite_none_right_eq_some.mp h).2

/-- What the walk comes to first at one step is in the chain, and at that place. -/
theorem getElem?_of_first {n : Nat} (hx : s.ancestor? n id = some x)
    (hfirst : ∀ m < n, s.ancestor? m id ≠ some x) : (s.scopeChain id)[n]? = some x := by
  obtain ⟨k, hk⟩ := List.getElem?_of_mem (mem_scopeChain.mpr ⟨n, hx⟩)
  have hle : n ≤ k := by
    by_contra hlt
    exact hfirst k (by omega) (ancestor?_of_getElem? hk)
  rw [getElem?_scopeChain] at hk ⊢
  have hcut := (Option.ite_none_right_eq_some.mp hk).1
  rw [if_pos (by omega), hx]

/-- A search through the chain comes to the first hit on the walk. -/
theorem findSome?_scopeChain_eq_some_iff {f : TupleId → Option α} {a : α} :
    (s.scopeChain id).findSome? f = some a ↔ ∃ n x, s.ancestor? n id = some x ∧ f x = some a ∧
      ∀ m < n, ∀ y, s.ancestor? m id = some y → f y = none := by
  rw [List.findSome?_eq_some_iff]
  constructor
  · rintro ⟨before, x, after, hchain, hx, hnone⟩
    refine ⟨before.length, x, ancestor?_of_getElem? (by simp [hchain]), hx, fun m hm y hy => ?_⟩
    have hcut : before.length < s.arena.slots.size := by
      have hplace : (s.scopeChain id)[before.length]? = some x := by simp [hchain]
      rw [getElem?_scopeChain] at hplace
      exact (Option.ite_none_right_eq_some.mp hplace).1
    have hplace : (s.scopeChain id)[m]? = _ := getElem?_scopeChain m
    rw [if_pos (by omega), hy, hchain, List.getElem?_append_left hm] at hplace
    exact hnone y (List.mem_of_getElem? hplace)
  · rintro ⟨n, x, hx, hfx, hfirst⟩
    -- a hit further inside would have come first
    have hplace := getElem?_of_first hx fun m hm hm' => by
      rw [hfirst m hm x hm'] at hfx
      cases hfx
    obtain ⟨hn, hget⟩ := List.getElem?_eq_some_iff.mp hplace
    refine ⟨(s.scopeChain id).take n, x, (s.scopeChain id).drop (n + 1), ?_, hfx, fun y hy => ?_⟩
    · rw [← hget, List.getElem_cons_drop, List.take_append_drop]
    · obtain ⟨m, hm, rfl⟩ := List.mem_take_iff_getElem.mp hy
      refine hfirst m (by omega) _ (ancestor?_of_getElem? ?_)
      exact List.getElem?_eq_getElem _

/-- A search through the chain is in vain if there is nothing on the walk. -/
theorem findSome?_scopeChain_eq_none_iff {f : TupleId → Option α} :
    (s.scopeChain id).findSome? f = none ↔ ∀ n x, s.ancestor? n id = some x → f x = none := by
  simp only [List.findSome?_eq_none_iff, mem_scopeChain]
  exact ⟨fun h n x hx => h x ⟨n, hx⟩, fun h x ⟨n, hx⟩ => h n x hx⟩

/-! ## The nearest tuple of a kind -/

/-- On the walk from `id`, the first tuple that `R` relates to anything is `x`, and `R` relates it
to `a`. -/
def Nearest (s : Store) (id : TupleId) (R : Tuple → α → Prop) (x : TupleId) (a : α) : Prop :=
  ∃ n t, s.ancestor? n id = some x ∧ s.tuple? x = some t ∧ R t a ∧
    ∀ m < n, ∀ y u, s.ancestor? m id = some y → s.tuple? y = some u → ∀ b, ¬R u b

/-- On the walk from `id` there is no tuple that `R` relates to anything. -/
def Nowhere (s : Store) (id : TupleId) (R : Tuple → α → Prop) : Prop :=
  ∀ n x t, s.ancestor? n id = some x → s.tuple? x = some t → ∀ a, ¬R t a

/-- The result of a search is the nearest tuple that `R` relates to anything, with what `R` relates
it to, or nothing if there is no such tuple. -/
structure Finds (s : Store) (id : TupleId) (R : Tuple → α → Prop)
    (found : Option (TupleId × α)) : Prop where
  hit : ∀ x a, found = some (x, a) ↔ s.Nearest id R x a
  miss : found = none ↔ s.Nowhere id R

/-- Only what the relation says of live tuples matters. -/
theorem Finds.congr {R R' : Tuple → α → Prop} {found : Option (TupleId × α)}
    (h : s.Finds id R found) (hR : ∀ x t, s.tuple? x = some t → ∀ a, R t a ↔ R' t a) :
    s.Finds id R' found where
  hit x a := by
    refine (h.hit x a).trans (exists_congr fun n => exists_congr fun t => and_congr_right fun _ =>
      and_congr_right fun ht => and_congr (hR x t ht a) ?_)
    refine forall₂_congr fun m _ => forall₂_congr fun y u => forall₂_congr fun _ hu => ?_
    exact forall_congr' fun b => not_congr (hR y u hu b)
  miss := by
    refine h.miss.trans (forall₃_congr fun n x t => forall₂_congr fun _ ht => ?_)
    exact forall_congr' fun a => not_congr (hR x t ht a)

/-- A search through the chain that asks every tuple finds the nearest one that answers. -/
theorem finds_findSome? (f : Tuple → Option α) :
    s.Finds id (fun t a => f t = some a)
      ((s.scopeChain id).findSome? fun x => (s.tuple? x).bind fun t => (f t).map (x, ·)) where
  hit x a := by
    rw [findSome?_scopeChain_eq_some_iff]
    constructor
    · rintro ⟨n, y, hy, hfound, hfirst⟩
      obtain ⟨t, ht, hfound⟩ := Option.bind_eq_some_iff.mp hfound
      obtain ⟨b, hb, heq⟩ := Option.map_eq_some_iff.mp hfound
      cases heq
      refine ⟨n, t, hy, ht, hb, fun m hm z u hz hu c hc => ?_⟩
      have hnone := hfirst m hm z hz
      rw [hu, Option.bind_some, hc] at hnone
      cases hnone
    · rintro ⟨n, t, hx, ht, ha, hfirst⟩
      refine ⟨n, x, hx, by rw [ht, Option.bind_some, ha, Option.map_some], fun m hm y hy => ?_⟩
      obtain ⟨u, hu⟩ := live_of_ancestor? hy
      rw [hu, Option.bind_some, Option.map_eq_none_iff]
      exact Option.eq_none_iff_forall_ne_some.mpr fun b => hfirst m hm y u hy hu b
  miss := by
    rw [findSome?_scopeChain_eq_none_iff]
    constructor
    · intro h n x t hx ht a ha
      have hnone := h n x hx
      rw [ht, Option.bind_some, ha] at hnone
      cases hnone
    · intro h n x hx
      obtain ⟨t, ht⟩ := live_of_ancestor? hx
      rw [ht, Option.bind_some, Option.map_eq_none_iff]
      exact Option.eq_none_iff_forall_ne_some.mpr fun a => h n x t hx ht a

/-! ## Lookups -/

/-- A variable is the nearest attribute that goes by the name. -/
theorem finds_lookupVariable (s : Store) (id : TupleId) (name : String) :
    s.Finds id (fun t p => t.position (.name name) = .ok p) (s.lookupVariable id name) :=
  (finds_findSome? fun t => t.index.lookup name).congr
    fun _ _ _ _ => Tuple.position_name_eq_ok.symm

/-- A type is the nearest one registered under the name, or the leaf of that name if it has a text
form and none is registered. -/
theorem lookupType_eq_some_iff {type : TypeDesc} :
    s.lookupType id name = some type ↔
      (∃ x, s.Nearest id (fun t type => t.localType? name = some type) x type) ∨
        s.Nowhere id (fun t type => t.localType? name = some type) ∧
          s.forms.contains name = true ∧ type = .leaf name := by
  have hfinds : s.Finds id (fun t type => t.localType? name = some type) _ :=
    finds_findSome? fun t => t.localType? name
  have hforget : ((s.scopeChain id).findSome? fun x => (s.tuple? x).bind (·.localType? name)) =
      ((s.scopeChain id).findSome? fun x =>
        (s.tuple? x).bind fun t => (t.localType? name).map (x, ·)).map (·.2) := by
    rw [List.map_findSome?]
    congr 1
    funext x
    cases ht : s.tuple? x <;> simp [ht, Function.comp_def]
  rw [lookupType, hforget, Option.or_eq_some_iff, Option.map_eq_some_iff, Option.map_eq_none_iff,
    hfinds.miss]
  refine or_congr ⟨?_, ?_⟩ (and_congr_right fun _ => ?_)
  · rintro ⟨⟨x, a⟩, hfound, rfl⟩
    exact ⟨x, (hfinds.hit x a).mp hfound⟩
  · rintro ⟨x, hx⟩
    exact ⟨(x, type), (hfinds.hit x type).mpr hx, rfl⟩
  · rw [Option.ite_none_right_eq_some, Option.some_inj, eq_comm (a := type)]

/-- A walk without a circle ends, and the last tuple that it comes to is the outermost scope. -/
theorem rootOf_of_acyclic (hlive : s.contains id = true)
    (hacyclic : ∀ m n x, s.ancestor? m id = some x → s.ancestor? n id = some x → m = n) :
    ∃ n x, s.ancestor? n id = some x ∧ s.ancestor? (n + 1) id = none ∧ s.rootOf id = x := by
  have hstart : s.ancestor? 0 id = some id := if_pos hlive
  have hne : s.scopeChain id ≠ [] := List.ne_nil_of_mem (mem_scopeChain.mpr ⟨0, hstart⟩)
  have hlast : (s.scopeChain id)[(s.scopeChain id).length - 1]? =
      some ((s.scopeChain id).getLast hne) := by
    rw [← List.getLast?_eq_getElem?, List.getLast?_eq_some_getLast hne]
  refine ⟨_, _, ancestor?_of_getElem? hlast,
    Option.eq_none_iff_forall_ne_some.mpr fun y hy => ?_, ?_⟩
  · -- what comes next would be in the chain as well, and there at an earlier step
    obtain ⟨k, hk⟩ := List.getElem?_of_mem (mem_scopeChain.mpr ⟨_, hy⟩)
    have hbound := (List.getElem?_eq_some_iff.mp hk).1
    have hsame := hacyclic _ _ y (ancestor?_of_getElem? hk) hy
    omega
  · rw [rootOf, List.getLast?_eq_some_getLast hne, Option.getD_some]

/-- Whatever the parents are, be they in a circle or given up: the scope chain holds all tuples that
the walk along the parents ever comes to. A variable is the nearest attribute of its name, at its
position, and there is none just if no tuple on the walk has such an attribute. A type is the
nearest one registered under its name, or else a leaf with a text form. The outermost scope is the
last tuple of the walk, if the walk does not run in a circle. -/
theorem lookups_see_the_whole_walk (s : Store) (id : TupleId) (name : String) :
    (∀ x, x ∈ s.scopeChain id ↔ ∃ n, s.ancestor? n id = some x) ∧
    s.Finds id (fun t p => t.position (.name name) = .ok p) (s.lookupVariable id name) ∧
    ((∀ x t, s.tuple? x = some t → t.Tabled) →
      s.Finds id (fun t p => t.nameAt? p = some name) (s.lookupVariable id name)) ∧
    (∀ type, s.lookupType id name = some type ↔
      (∃ x, s.Nearest id (fun t type => t.localType? name = some type) x type) ∨
        s.Nowhere id (fun t type => t.localType? name = some type) ∧
          s.forms.contains name = true ∧ type = .leaf name) ∧
    (s.contains id = true →
      (∀ m n x, s.ancestor? m id = some x → s.ancestor? n id = some x → m = n) →
      ∃ n x, s.ancestor? n id = some x ∧ s.ancestor? (n + 1) id = none ∧ s.rootOf id = x) := by
  have hvariable := finds_lookupVariable s id name
  refine ⟨fun x => mem_scopeChain, hvariable, fun htabled => ?_, fun type => lookupType_eq_some_iff,
    rootOf_of_acyclic⟩
  exact hvariable.congr fun x t ht p => (htabled x t ht).position_name name p

/-- Three tuples: a scope with the attribute `x` whose parent has been given up, a tuple in it, and
one that is its own parent. -/
def strandedStore : Store :=
  let kind := TupleKind.dynamic
  let permissions := Permissions.all
  { root := ⟨3, 0⟩
    heap := ⟨#[.int 1]⟩
    arena :=
      { free := [0]
        slots := #[{ vacated := 1 },
          ⟨0, some { kind, permissions, parent := some ⟨0, 0⟩, index := [("x", 0)]
                     entries := [⟨some "x", { type := .leaf "int", loc := 0 }⟩] }⟩,
          ⟨0, some { kind, permissions, parent := some ⟨1, 0⟩ }⟩,
          ⟨0, some { kind, permissions, parent := some ⟨3, 0⟩ }⟩] } }

theorem strandedStore_tabled {x : TupleId} {t : Tuple} (h : strandedStore.tuple? x = some t) :
    t.Tabled := by
  obtain ⟨n, hslot, -⟩ := Arena.get?_eq_some_iff.mp h
  obtain ⟨index, generation⟩ := x
  rcases index with _ | _ | _ | _ | index
  · cases hslot
  · cases hslot
    exact ⟨rfl, by decide, by simp, by simp, fun name => rfl⟩
  · cases hslot
    exact .empty rfl rfl rfl rfl
  · cases hslot
    exact .empty rfl rfl rfl rfl
  · cases hslot

/-- The walk from the inner tuple comes to two tuples. -/
theorem strandedStore_walk {n : Nat} {x : TupleId} (h : strandedStore.ancestor? n ⟨2, 0⟩ = some x) :
    n = 0 ∧ x = ⟨2, 0⟩ ∨ n = 1 ∧ x = ⟨1, 0⟩ := by
  rcases n with _ | _ | _ | n
  · exact .inl ⟨rfl, (Option.some.inj h).symm⟩
  · exact .inr ⟨rfl, (Option.some.inj h).symm⟩
  · cases h
  · cases h

/-- From the inner tuple `x` is seen, and the scope that has it is the outermost one. On the circle
nothing is found, however long one walks. -/
theorem lookups_see_the_whole_walk_stranded :
    (∀ x t, strandedStore.tuple? x = some t → t.Tabled) ∧ strandedStore.contains ⟨2, 0⟩ = true ∧
      strandedStore.Finds ⟨2, 0⟩ (fun t p => t.nameAt? p = some "x") (some (⟨1, 0⟩, 0)) ∧
      strandedStore.Finds ⟨3, 0⟩ (fun t p => t.nameAt? p = some "x") none ∧
      strandedStore.rootOf ⟨2, 0⟩ = ⟨1, 0⟩ := by
  have htabled : ∀ x t, strandedStore.tuple? x = some t → t.Tabled := fun _ _ =>
    strandedStore_tabled
  obtain ⟨-, -, hinner, -, hroot⟩ := lookups_see_the_whole_walk strandedStore ⟨2, 0⟩ "x"
  obtain ⟨-, -, hcircle, -, -⟩ := lookups_see_the_whole_walk strandedStore ⟨3, 0⟩ "x"
  refine ⟨htabled, rfl, hinner htabled, hcircle htabled, ?_⟩
  obtain ⟨n, x, hx, hend, hrootOf⟩ := hroot rfl fun m n x hm hn => by
    rcases strandedStore_walk hm with ⟨rfl, rfl⟩ | ⟨rfl, rfl⟩ <;>
      rcases strandedStore_walk hn with ⟨rfl, h⟩ | ⟨rfl, h⟩ <;> first | rfl | cases h
  rcases strandedStore_walk hx with ⟨rfl, rfl⟩ | ⟨rfl, rfl⟩
  · cases hend
  · exact hrootOf

end Store

end TupleLang
