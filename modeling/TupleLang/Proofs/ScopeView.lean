import TupleLang.Proofs.ExprMeaning
import TupleLang.Proofs.Refusal
import TupleLang.Proofs.Scoping
import TupleLang.Proofs.TreeText

/-!
# What is seen from a scope

An expression depends on its scope by the variables, types and actions that are seen from there. A
scope is *anchored* when the way from it outwards, from parent to parent, comes to a scope without
one. What is seen from an anchored scope stays the same while the store gets new tuples
(`Store.Anchored.env_eq`). It does not from every scope. A way that runs in a circle is cut by the
number of slots, and where it is cut depends on how many tuples there have been. A way that ends at
a parent that is gone goes on when the id is given out again.

A store is *basic* when nothing was registered besides what the language brings along. What is seen
in a basic store then has a simple form: no name means a tree, no function is called like the letter
of a tuple, and none has arguments with names.
-/

namespace TupleLang

namespace Store

variable {s s' : Store} {scope id x y : TupleId} {t : Tuple} {out : Option TupleId}
  {m m' n k : Nat}

/-! ## Anchored scopes -/

/-- The way outwards from a scope comes to a tuple with the parent `out`. It ends there, for that
tuple has no parent, or its parent has been given up. -/
structure Anchored (s : Store) (scope : TupleId) (out : Option TupleId) : Prop where
  outermost : ∃ n x t, s.ancestor? n scope = some x ∧ s.tuple? x = some t ∧ t.parent = out
  issued : ∀ id ∈ out, s.arena.Issued id
  gone : ∀ id ∈ out, s.tuple? id = none

/-- The slot of the id, if there is one, has not come to its first generation again. -/
def youngAt (out : Option TupleId) : Proviso where
  Holds s := ∀ id ∈ out, s.arena.YoungAt id
  early hages hy id hid := hages.arena.youngAt (hy id hid)

/-- Without a parent that is gone there is no id to wait for. -/
theorem holds_youngAt_none (s : Store) : (youngAt none).Holds s := nofun

/-- A live tuple is the same in a store with more tuples. -/
theorem Enlarges.tuple?_eq (h : s.Enlarges s') (ht : s.tuple? id = some t) :
    s'.tuple? id = some t := by
  obtain ⟨new, htrade⟩ := h.trade
  rw [htrade.same id List.not_mem_nil (htrade.not_mem_new ht List.not_mem_nil), ht]

/-- A scope with something around it is live itself. -/
theorem exists_of_ancestor? (h : s.ancestor? n id = some x) : ∃ t, s.tuple? id = some t := by
  rw [← Nat.zero_add n, ancestor?_add] at h
  obtain ⟨y, hy, -⟩ := Option.bind_eq_some_iff.mp h
  rw [ancestor?] at hy
  exact Option.isSome_iff_exists.mp (by by_contra hdead; simp [hdead] at hy)

/-- There is nothing around a scope the parent of which is not live. -/
theorem le_of_ancestor? (hx : s.ancestor? n id = some x) (ht : s.tuple? x = some t)
    (hout : ∀ y ∈ t.parent, s.tuple? y = none) (hy : s.ancestor? k id = some y) : k ≤ n := by
  by_contra hlt
  rw [show k = n + (k - n - 1 + 1) by omega, ancestor?_add, hx, Option.bind_some, ancestor?, ht,
    Option.bind_some] at hy
  obtain ⟨z, hz, hy⟩ := Option.bind_eq_some_iff.mp hy
  obtain ⟨u, hu⟩ := exists_of_ancestor? hy
  rw [hout z hz] at hu
  cases hu

/-- There is no chain of what is not live. -/
theorem chainWithin_eq_nil (hdead : s.tuple? id = none) (n : Nat) : s.chainWithin n id = [] := by
  cases n with
  | zero => rfl
  | succ n => rw [chainWithin, hdead]

/-- The chain of a scope ends where the parent is not live, whatever bound there is beyond that. -/
theorem chainWithin_eq (hkept : ∀ y u, s.tuple? y = some u → s'.tuple? y = some u)
    (hx : s.ancestor? n id = some x) (ht : s.tuple? x = some t)
    (hout : ∀ y ∈ t.parent, s.tuple? y = none) (hout' : ∀ y ∈ t.parent, s'.tuple? y = none)
    (hm : n < m) (hm' : n < m') : s'.chainWithin m' id = s.chainWithin m id := by
  obtain ⟨m, rfl⟩ := Nat.exists_eq_add_one.mpr (Nat.zero_lt_of_lt hm)
  obtain ⟨m', rfl⟩ := Nat.exists_eq_add_one.mpr (Nat.zero_lt_of_lt hm')
  induction n generalizing id m m' with
  | zero =>
    rw [ancestor?] at hx
    split at hx
    · cases hx
      rw [chainWithin, hkept _ _ ht, chainWithin, ht]
      dsimp only
      -- the chain ends here in both stores, for the parent is gone in both
      cases hparent : t.parent with
      | none => rfl
      | some y =>
        dsimp only
        rw [chainWithin_eq_nil (hout y hparent), chainWithin_eq_nil (hout' y hparent)]
    · cases hx
  | succ n ih =>
    obtain ⟨parent, hid, hx⟩ := Option.bind_eq_some_iff.mp hx
    obtain ⟨u, hu, hup⟩ := Option.bind_eq_some_iff.mp hid
    obtain ⟨m, rfl⟩ := Nat.exists_eq_add_one.mpr (show 0 < m by omega)
    obtain ⟨m', rfl⟩ := Nat.exists_eq_add_one.mpr (show 0 < m' by omega)
    rw [chainWithin, hkept _ _ hu, chainWithin, hu]
    dsimp only
    rw [hup]
    exact congrArg (id :: ·) (ih hx m (by omega) m' (by omega))

/-- An anchored scope is live. -/
theorem Anchored.live (h : s.Anchored scope out) : ∃ t, s.tuple? scope = some t := by
  obtain ⟨n, x, t, hx, -, -⟩ := h.outermost
  exact exists_of_ancestor? hx

/-- The scopes around a tuple are the same in a store with more tuples. -/
theorem Enlarges.ancestor?_eq (h : s.Enlarges s') (hx : s.ancestor? n id = some x) :
    s'.ancestor? n id = some x := by
  induction n generalizing id with
  | zero =>
    rw [ancestor?] at hx ⊢
    split at hx
    · rename_i hlive
      obtain ⟨u, hu⟩ := Option.isSome_iff_exists.mp hlive
      rw [h.tuple?_eq hu]
      exact hx
    · cases hx
  | succ n ih =>
    obtain ⟨parent, hid, hx⟩ := Option.bind_eq_some_iff.mp hx
    obtain ⟨u, hu, hparent⟩ := Option.bind_eq_some_iff.mp hid
    rw [ancestor?, h.tuple?_eq hu, Option.bind_some, hparent]
    exact ih hx

section Anchored

variable (h : s.Anchored scope out) (hs : s.Enlarges s') (hy : (youngAt out).Holds s')

include h hs hy

theorem Anchored.scopeChain_eq : s'.scopeChain scope = s.scopeChain scope := by
  obtain ⟨n, x, t, hx, ht, rfl⟩ := h.outermost
  have hgone : ∀ y ∈ t.parent, s'.tuple? y = none := fun y hparent =>
    hs.ages.arena.get?_eq_none_of_youngAt (hy y hparent) (h.issued y hparent) (h.gone y hparent)
  -- in either store the outermost scope is in the chain, and only one way leads there
  have hbound : ∀ s' : Store, s'.ancestor? n scope = some x → s'.tuple? x = some t →
      (∀ y ∈ t.parent, s'.tuple? y = none) → n < s'.arena.slots.size := by
    intro s' hx' ht' hgone'
    obtain ⟨k, hk, hkx⟩ := mem_chainWithin.mp (mem_scopeChain.mpr ⟨n, hx'⟩)
    exact lt_of_le_of_lt (le_of_ancestor? hkx ht' hgone' hx') hk
  exact chainWithin_eq (fun y u => hs.tuple?_eq) hx ht h.gone hgone (hbound s hx ht h.gone)
    (hbound s' (hs.ancestor?_eq hx) (hs.tuple?_eq ht) hgone)

omit h hy in
theorem Enlarges.tuple?_eq_of_mem (hy : y ∈ s.scopeChain scope) : s'.tuple? y = s.tuple? y := by
  obtain ⟨k, hk⟩ := mem_scopeChain.mp hy
  obtain ⟨u, hu⟩ := live_of_ancestor? hk
  rw [hs.tuple?_eq hu, hu]

/-- Nothing that is seen from the scopes of a chain has changed. -/
theorem Anchored.findSome?_eq {α : Type} (f : TupleId → Tuple → Option α) :
    ((s'.scopeChain scope).findSome? fun y => (s'.tuple? y).bind (f y)) =
      (s.scopeChain scope).findSome? fun y => (s.tuple? y).bind (f y) := by
  rw [h.scopeChain_eq hs hy]
  have hsub : ∀ y ∈ s.scopeChain scope, s'.tuple? y = s.tuple? y := fun y => hs.tuple?_eq_of_mem
  generalize s.scopeChain scope = chain at hsub
  induction chain with
  | nil => rfl
  | cons y chain ih =>
    rw [List.findSome?_cons, List.findSome?_cons, hsub y List.mem_cons_self,
      ih fun z hz => hsub z (List.mem_cons_of_mem _ hz)]

theorem Anchored.variableCell?_eq (name : String) :
    s'.variableCell? scope name = s.variableCell? scope name := by
  have hlookup : s'.lookupVariable scope name = s.lookupVariable scope name :=
    h.findSome?_eq hs hy fun y t => (t.index.lookup name).map (y, ·)
  unfold variableCell?
  rw [hlookup]
  cases hfound : s.lookupVariable scope name with
  | none => rfl
  | some r =>
    obtain ⟨y, hy, hr⟩ := List.exists_of_findSome?_eq_some hfound
    obtain ⟨u, hu, hr⟩ := Option.bind_eq_some_iff.mp hr
    obtain ⟨pos, -, rfl⟩ := Option.map_eq_some_iff.mp hr
    change (s'.tuple? y).bind _ = (s.tuple? y).bind _
    rw [hs.tuple?_eq_of_mem hy]

theorem Anchored.lookupType_eq (name : String) :
    s'.lookupType scope name = s.lookupType scope name := by
  have hforms : s'.forms = s.forms := by
    obtain ⟨new, htrade⟩ := hs.trade
    exact htrade.forms
  unfold lookupType
  rw [h.findSome?_eq hs hy fun _ t => t.localType? name, hforms]

/-- An anchored scope finds the same actions after the store was enlarged. -/
theorem Anchored.actionsNamed_eq (name : String) :
    s'.actionsNamed scope name = s.actionsNamed scope name := by
  obtain ⟨n, x, t, hx, -, -⟩ := h.outermost
  have hne : s.scopeChain scope ≠ [] := List.ne_nil_of_mem (mem_scopeChain.mpr ⟨n, hx⟩)
  have hroot : ∀ s' : Store, s'.scopeChain scope = s.scopeChain scope →
      s'.rootOf scope = (s.scopeChain scope).getLast hne := by
    intro s' hchain
    rw [rootOf, hchain, List.getLast?_eq_some_getLast hne, Option.getD_some]
  unfold Store.actionsNamed
  rw [hroot s' (h.scopeChain_eq hs hy), hroot s rfl, hs.tuple?_eq_of_mem (List.getLast_mem hne)]

/-- From an anchored scope the same is seen while the store gets new tuples. -/
theorem Anchored.env_eq : s'.env scope = s.env scope := by
  -- the outermost scope is the same tuple in both stores
  have hactions : ∀ category name owner args,
      s'.actionsOf category scope name owner args = s.actionsOf category scope name owner args := by
    intro category name owner args
    rw [actionsOf, actionsMatching, h.actionsNamed_eq hs hy]
    rfl
  unfold env
  congr 1
  · exact funext fun name => h.variableCell?_eq hs hy name
  · exact funext fun name => h.lookupType_eq hs hy name
  · funext op name owner args
    rw [candidates, operators, constructors, isType, hactions, hactions, hactions,
      h.lookupType_eq hs hy]
    rfl

end Anchored

end Store

/-! ## Basic stores -/

/-- No types are registered, and the only actions are the language's own. -/
structure Tuple.Basic (t : Tuple) : Prop where
  charted : t.Charted []
  own : ∀ p ∈ t.actions, p.2 ∈ Builtin.catalogue

/-- Nothing was registered besides what the language brings along. -/
structure Store.Basic (s : Store) : Prop where
  forms : s.forms = {}
  tuples : s.arena.Every Tuple.Basic

/-- Basic tuples are told by what is registered in them. -/
theorem Tuple.ofRegistry_basic : OfRegistry Basic where
  congr hsame h := ⟨(ofRegistry_charted []).congr hsame h.charted, by rw [hsame.2.1]; exact h.own⟩
  empty htypes hactions hnames :=
    ⟨(ofRegistry_charted []).empty htypes hactions hnames, by simp [hactions]⟩

/-- A tuple stays basic with an action of the language. -/
theorem Tuple.Basic.insertAction {t t' : Tuple} {a : Action} (h : t.Basic)
    (ha : a ∈ Builtin.catalogue) (hrun : t.insertAction a = .ok t') : t'.Basic := by
  have hcharted := h.charted.insertAction hrun
    fun hcategory => absurd hcategory (Store.category_of_mem_catalogue ha)
  obtain ⟨-, rfl⟩ := insertAction_eq_ok hrun
  refine ⟨hcharted, fun p hp => ?_⟩
  rcases List.mem_append.mp hp with hp | hp
  · exact h.own p hp
  · rwa [List.mem_singleton.mp hp]

/-- An action found under a name is one of the language's own of that name. -/
theorem Tuple.Basic.of_mem_actionsNamed {t : Tuple} {name : String} {a : Action} (h : t.Basic)
    (ha : a ∈ t.actionsNamed name) : a ∈ Builtin.catalogue ∧ a.name = name := by
  obtain ⟨keys, key, -, -, hlookup⟩ := mem_actionsNamed ha
  exact ⟨h.own _ (mem_of_lookup hlookup), (h.charted.of_mem_actionsNamed ha).1⟩

/-- What a store without actions has, and what registering actions in the root scope keeps, is true
of a new store. -/
theorem Store.standard_induction {P : Store → Prop} (hbare : P (bare {}))
    (hput : ∀ s t t' a, P s → s.tuple? s.root = some t → t.insertAction a = .ok t' →
      P (s.putTuple s.root t')) : P standard := by
  -- each action of the catalogue is registered, or refused and nothing changes
  have hall : ∀ (actions : List Action) (s : Store), P s → P (actions.foldl define s) := by
    intro actions
    induction actions with
    | nil => exact fun s hs => hs
    | cons a rest ih =>
      refine fun s hs => ih (s.define a) ?_
      unfold define
      cases hrun : StoreM.registerAction s.root a s with
      | error e s' =>
        obtain rfl := StoreM.eq_of_update_error hrun
        exact hs
      | ok _ s' =>
        obtain ⟨t, t', ht, hinsert, rfl⟩ := StoreM.update_eq_ok.mp hrun
        refine hput s t t' a hs ht ?_
        cases hrun' : t.insertAction a with
        | error e =>
          rw [hrun'] at hinsert
          cases hinsert
        | ok u =>
          rw [hrun'] at hinsert
          cases hinsert
          rfl
  rw [standard]
  exact hall _ _ hbare

/-- A new store is basic. -/
theorem Store.basic_withSettings (settings : Settings) : (withSettings settings).Basic where
  forms := by
    -- said of any store, so that nothing is computed from this one
    have hforms : ∀ s : Store, { s with settings }.forms = s.forms := fun _ => rfl
    rw [withSettings, hforms]
    exact standard_induction (P := fun s => s.forms = {}) rfl fun _ _ _ _ hs _ _ => hs
  tuples := every_withSettings Tuple.ofRegistry_basic.sturdy
    (fun _ ha _ _ ht hrun => ht.insertAction ha hrun) settings

/-- A store stays sound with one more tuple. -/
theorem Store.Sound.createWith {s : Store} (hs : s.Sound) (kind : TupleKind)
    (permissions : Permissions) (parent : Option TupleId) :
    (s.createWith kind permissions parent).2.Sound := by
  refine ⟨hs.arena.alloc _, ?_⟩
  obtain ⟨r, hr⟩ := hs.root_live
  obtain ⟨hdead, hget⟩ := Arena.get?_alloc hs.arena
    { kind, permissions := kind.fixedPermissions?.getD permissions, parent : Tuple }
  refine ⟨r, (hget s.root).trans ?_⟩
  rw [if_neg fun heq => ?_]
  · exact hr
  · rw [← heq] at hdead
    exact nomatch hdead.symm.trans hr

/-- A store stays sound when a tuple is given a parent. -/
theorem Store.Sound.adopt {s : Store} (hs : s.Sound) (parent child : TupleId) :
    (s.adopt parent child).Sound := by
  unfold Store.adopt
  split
  · rename_i t ht
    exact hs.putTuple ht _
  · exact hs

/-- A basic store stays so with one more tuple. -/
theorem Store.Basic.createWith {s : Store} (hs : s.Basic) (kind : TupleKind)
    (permissions : Permissions) (parent : Option TupleId) :
    (s.createWith kind permissions parent).2.Basic :=
  ⟨hs.forms, hs.tuples.alloc (Tuple.ofRegistry_basic.empty rfl rfl rfl)⟩

/-- A basic store stays so when a tuple is given a parent. -/
theorem Store.Basic.adopt {s : Store} (hs : s.Basic) (parent child : TupleId) :
    (s.adopt parent child).Basic where
  forms := by
    unfold Store.adopt
    split <;> exact hs.forms
  tuples := every_adopt
    (fun t _ ht => Tuple.ofRegistry_basic.congr (t := t) ⟨rfl, rfl, rfl⟩ ht) hs.tuples parent child

/-- A new store is sound, and its root scope has no parent. -/
theorem Store.sound_withSettings (settings : Settings) : (withSettings settings).Sound ∧
    (withSettings settings).Anchored (withSettings settings).root none := by
  have hstandard : standard.Sound ∧ ∃ t, standard.tuple? standard.root = some t ∧
    t.parent = none := by
    refine standard_induction (P := fun s => s.Sound ∧ ∃ t, s.tuple? s.root = some t ∧
      t.parent = none)
      ⟨sound_bare {}, _, rfl, rfl⟩ ?_
    rintro s t t' a ⟨hs, u, hu, hparent⟩ ht hinsert
    obtain rfl : u = t := Option.some.inj (hu.symm.trans ht)
    obtain ⟨-, rfl⟩ := Tuple.insertAction_eq_ok hinsert
    refine ⟨hs.putTuple ht _, _, (tuple?_putTuple ht _ _).trans (if_pos rfl), hparent⟩
  -- settings have no part in soundness
  have hsettings : ∀ s : Store, (s.Sound ∧ ∃ t, s.tuple? s.root = some t ∧ t.parent = none) →
      { s with settings }.Sound ∧
        { s with settings }.Anchored ({ s with settings } : Store).root none := by
    rintro s ⟨hs, t, ht, hparent⟩
    refine ⟨⟨hs.arena, hs.root_live⟩, ⟨0, s.root, t, ?_, ht, hparent⟩, nofun, nofun⟩
    have hlive : ({ s with settings } : Store).tuple? s.root = some t := ht
    rw [ancestor?, hlive, Option.isSome_some, if_pos rfl]
  rw [withSettings]
  exact hsettings standard hstandard

namespace Builtin

variable {a : Action}

/-- No action of the language names its arguments. -/
theorem unnamed_of_mem_catalogue (h : a ∈ catalogue) : ∀ d ∈ a.signature.args.fields,
    d.1 = none := by
  have hall : catalogue.all (fun a => a.signature.args.fields.all (·.1.isNone)) = true := by rfl
  intro d hd
  exact Option.isNone_iff_eq_none.mp (List.all_eq_true.mp (List.all_eq_true.mp hall a h) d hd)

/-- No action of the language is called like the letter of a tuple or of a type. -/
theorem name_of_mem_catalogue (h : a ∈ catalogue) : a.name ∉ ["P", "D", "E", "T"] := by
  have hall : ∀ name ∈ catalogue.map Action.name, name ∉ ["P", "D", "E", "T"] := by decide +kernel
  exact hall a.name (List.mem_map_of_mem h)

end Builtin

/-- Where no argument is declared with a name, no named argument is accepted. -/
theorem Signature.bindArgs_eq_none {declared fields : List TypeDesc.Field}
    (hdeclared : ∀ d ∈ declared, d.1 = none) (hfields : (fields.any fun f => f.1.isSome) = true)
    (i : Nat) (taken : List Nat) : bindArgs declared i taken fields = none := by
  induction fields generalizing i taken with
  | nil => cases hfields
  | cons f rest ih =>
    obtain ⟨name, type⟩ := f
    rw [bindArgs]
    cases name with
    | some name =>
      -- no declared argument has this name, for they have none
      have hposition : declaredPosition? declared i (some name) = none := by
        rw [declaredPosition?, List.findIdx?_eq_none_iff]
        intro d hd
        simp [hdeclared d hd]
      rw [hposition]
    | none =>
      have hrest := ih (by simpa using hfields)
      simp [declaredPosition?, hrest]

/-- The types of the language have names that are read as types. -/
theorem TextForms.isLeafName_of_contains {name : String}
    (h : ({} : TextForms).contains name = true) :
    TypeDesc.IsLeafName name := by
  -- all names in the table are words of the language, apart from `void`
  have hall : standard.all (fun p => p.1 == "void" || !Lexer.reserved.contains p.1 &&
      p.1.toList.head?.any Lexer.isWordStart && p.1.toList.tail.all Lexer.isWordPart) = true := by
    decide +kernel
  obtain ⟨form, hform⟩ := Option.isSome_iff_exists.mp h
  obtain ⟨before, after, htable, -⟩ := List.lookup_eq_some_iff.mp hform
  have hmem : (name, form) ∈ TextForms.table {} := by simp [htable]
  have hname := List.all_eq_true.mp hall (name, form) (by simpa [table] using hmem)
  simp only [Bool.or_eq_true, beq_iff_eq, Bool.and_eq_true] at hname
  rcases hname with hvoid | ⟨⟨hfree, hstart⟩, hparts⟩
  · exact .inr hvoid
  · cases hchars : name.toList with
    | nil => simp [hchars] at hstart
    | cons c cs =>
      rw [hchars] at hstart hparts
      exact .inl ⟨⟨c, cs, hchars, hstart, List.all_eq_true.mp hparts⟩, by simpa using hfree⟩

namespace Store

variable {s : Store} {scope : TupleId} {out : Option TupleId}

/-- What may be bound in a basic store is one of the language's own actions. -/
theorem Basic.of_mem_candidates (hs : s.Basic) {op : Operator} {name : String}
    {owner args : TypeDesc} {a : Action} (ha : a ∈ (s.env scope).candidates op name owner args) :
    a ∈ Builtin.catalogue ∧ a.name = name := by
  obtain ⟨t, ht, hnamed⟩ := mem_actionsNamed (named_of_mem_candidates ha)
  exact (hs.tuples.of_get? ht).of_mem_actionsNamed hnamed

/-- What is seen in a basic store is plain. -/
theorem Basic.plain (hs : s.Basic) : (s.env scope).Plain where
  type := by
    intro name type htype
    rcases Option.or_eq_some_iff.mp htype with hlocal | ⟨-, hform⟩
    · obtain ⟨y, -, hy⟩ := List.exists_of_findSome?_eq_some hlocal
      obtain ⟨t, ht, hlookup⟩ := Option.bind_eq_some_iff.mp hy
      obtain ⟨before, after, htypes, -⟩ := List.lookup_eq_some_iff.mp hlookup
      exact absurd ((hs.tuples.of_get? ht).charted.types (name, type) (by simp [htypes]))
        List.not_mem_nil
    · rw [hs.forms] at hform
      obtain ⟨hcontains, hleaf⟩ := Option.ite_none_right_eq_some.mp hform
      cases hleaf
      exact ⟨name, rfl, TextForms.isLeafName_of_contains hcontains⟩
  letter := by
    intro name owner args hname
    refine List.eq_nil_iff_forall_not_mem.mpr fun a ha => ?_
    obtain ⟨hmem, rfl⟩ := hs.of_mem_candidates ha
    exact Builtin.name_of_mem_catalogue hmem hname
  nameless := by
    intro name fields hfields
    refine List.eq_nil_iff_forall_not_mem.mpr fun a ha => ?_
    obtain ⟨hmem, -⟩ := hs.of_mem_candidates ha
    -- built-in actions declare no names, so named arguments bind to nothing
    have hnone : a.signature.declaredPositions (.tree fields) = none := by
      rw [Signature.declaredPositions]
      split
      · exact Signature.bindArgs_eq_none (Builtin.unnamed_of_mem_catalogue hmem) hfields 0 []
      · rfl
    have hcandidate : a ∈ s.candidates scope ⟨.call, name, [], []⟩ .void (.tree fields) := ha
    have haccepts : a.signature.accepts .void (.tree fields) = true := by
      rcases mem_candidates hcandidate with ⟨hcall, -⟩ | ⟨-, h | ⟨-, h⟩⟩
      · exact absurd rfl hcall
      · exact (mem_actionsOf.mp h).2.1
      · exact (mem_actionsOf.mp h).2.1
    rw [Signature.accepts, hnone] at haccepts
    simp at haccepts

/-- From an anchored scope the same is seen in all larger stores. -/
theorem Anchored.sees (h : s.Anchored scope out) : s.Sees (youngAt out) scope (s.env scope) :=
  fun _ => h.env_eq

end Store

end TupleLang
