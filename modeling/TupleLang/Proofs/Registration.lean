import TupleLang.Proofs.Placement
import TupleLang.Proofs.Relations
import TupleLang.Proofs.ScopeView

/-!
# Registered types

A tree type is registered in two places: the type itself in a tuple, from where it is seen inwards,
and its constructor at the outermost scope around this tuple, where all actions are looked for. A
scope offers the type under its name if it is around the tuple and comes to the same outermost scope
(`Anchored.offers_registerType`). In a ring of scopes it may come to another one, as which scope is
the outermost depends on where one begins.
-/

namespace TupleLang

namespace Store

section Registration

variable {s s' : Store} {scope id : TupleId} {t t' : Tuple} {name : String} {type : TypeDesc}

/-- The outermost scope is the one whose parent is not live. -/
theorem rootOf_of_ancestor? {n : Nat} {x : TupleId} (hx : s.ancestor? n id = some x)
    (ht : s.tuple? x = some t) (hout : ∀ y ∈ t.parent, s.tuple? y = none) : s.rootOf id = x := by
  obtain ⟨k, hk, hkx⟩ := mem_chainWithin.mp (mem_scopeChain.mpr ⟨n, hx⟩)
  suffices hlast : ∀ m, n < m → (s.chainWithin m id).getLast? = some x by
    rw [rootOf, scopeChain, hlast _ (lt_of_le_of_lt (le_of_ancestor? hkx ht hout hx) hk),
      Option.getD_some]
  clear k hk hkx
  induction n generalizing id with
  | zero =>
    intro m hm
    obtain ⟨m, rfl⟩ := Nat.exists_eq_add_one.mpr hm
    obtain ⟨-, hx⟩ := Option.ite_none_right_eq_some.mp hx
    cases hx
    rw [chainWithin, ht]
    dsimp only
    cases hparent : t.parent with
    | none => rfl
    | some y =>
      dsimp only
      rw [chainWithin_eq_nil (hout y hparent)]
      rfl
  | succ n ih =>
    -- the chain goes on from the parent, from where it is one step less
    intro m hm
    obtain ⟨m, rfl⟩ := Nat.exists_eq_add_one.mpr (Nat.zero_lt_of_lt hm)
    obtain ⟨parent, hid, hx⟩ := Option.bind_eq_some_iff.mp hx
    obtain ⟨u, hu, hup⟩ := Option.bind_eq_some_iff.mp hid
    have hlast := ih hx m (by omega)
    rw [chainWithin, hu]
    dsimp only
    rw [hup]
    dsimp only
    rw [List.getLast?_cons, hlast, Option.getD_some]

/-- The scopes around an anchored one have the same outermost scope, which is live. -/
theorem Anchored.exists_root {out : Option TupleId} (h : s.Anchored scope out) :
    ∃ x t, s.tuple? x = some t ∧ x ∈ s.scopeChain scope ∧
      ∀ y ∈ s.scopeChain scope, s.rootOf y = x := by
  obtain ⟨n, x, t, hx, ht, rfl⟩ := h.outermost
  refine ⟨x, t, ht, mem_scopeChain.mpr ⟨n, hx⟩, fun y hy => ?_⟩
  obtain ⟨k, hk⟩ := mem_scopeChain.mp hy
  have hle := le_of_ancestor? hx ht h.gone hk
  rw [show n = k + (n - k) by omega, ancestor?_add, hk, Option.bind_some] at hx
  exact rootOf_of_ancestor? hx ht h.gone

/-- The scopes around a tuple are found by the parents. -/
theorem chainWithin_congr (h : ∀ x, (s'.tuple? x).map (·.parent) = (s.tuple? x).map (·.parent))
    (n : Nat) (id : TupleId) : s'.chainWithin n id = s.chainWithin n id := by
  induction n generalizing id with
  | zero => rfl
  | succ n ih =>
    have hid := h id
    rw [chainWithin, chainWithin]
    cases ht : s.tuple? id with
    | none => rw [ht, Option.map_none, Option.map_eq_none_iff] at hid; rw [hid]
    | some t =>
      rw [ht, Option.map_some, Option.map_eq_some_iff] at hid
      obtain ⟨t', ht', hparent⟩ := hid
      rw [ht']
      dsimp only
      rw [hparent]
      cases t.parent with
      | none => rfl
      | some parent => exact congrArg (id :: ·) (ih parent)

/-- A tuple that is changed stands where it stood, if its parent is the same. -/
theorem scopeChain_putTuple (ht : s.tuple? id = some t) (hparent : t'.parent = t.parent)
    (scope : TupleId) : (s.putTuple id t').scopeChain scope = s.scopeChain scope := by
  rw [scopeChain, show (s.putTuple id t').arena.slots.size = s.arena.slots.size from
    Arena.size_put _ _ _]
  refine chainWithin_congr (fun x => ?_) _ _
  rw [tuple?_putTuple ht]
  by_cases hx : x = id
  · rw [if_pos hx, hx, ht, Option.map_some, Option.map_some, hparent]
  · rw [if_neg hx]

theorem rootOf_putTuple (ht : s.tuple? id = some t) (hparent : t'.parent = t.parent)
    (scope : TupleId) : (s.putTuple id t').rootOf scope = s.rootOf scope := by
  rw [rootOf, scopeChain_putTuple ht hparent]
  rfl

end Registration

end Store

namespace Tuple

variable {t t' r r' : Tuple} {name : String} {type : TypeDesc} {action : Action}

/-- Where no action has the name of an action, there is none with its signature. -/
theorem Tabled.action?_eq_none (h : t.Tabled) (hnone : t.actionsNamed action.name = []) :
    t.action? action.signature = none := by
  rw [action?, List.lookup_eq_none_iff]
  intro p hp
  rw [bne_iff_ne]
  intro hkey
  have hname : p.2.name = action.name := by
    rw [h.signatures p hp] at hkey
    exact congrArg Signature.name (Signature.key_injective hkey.symm)
  rw [h.actionsNamed_eq, List.filter_eq_nil_iff] at hnone
  exact hnone p.2 (List.mem_map_of_mem hp) (decide_eq_true hname)

/-- An action that is registered goes by its name, after the others that do. -/
theorem Tabled.actionsNamed_insertAction (h : t.Tabled) (hrun : t.insertAction action = .ok t')
    (name : String) : t'.actionsNamed name =
      t.actionsNamed name ++ if action.name = name then [action] else [] := by
  rw [(h.insertAction hrun).actionsNamed_eq, h.actionsNamed_eq, (insertAction_eq_ok hrun).2,
    List.map_append, List.filter_append]
  by_cases hname : action.name = name <;> simp [hname]

end Tuple

namespace Store

section Registration

variable {s s' : Store} {scope id : TupleId} {r : Tuple} {name : String} {type : TypeDesc}

/-- What only one of the scopes has is found there. -/
theorem findSome?_eq_of_sole {α : Type} {f : TupleId → Option α} {found : α} {chain : List TupleId}
    (hid : id ∈ chain) (h : ∀ y ∈ chain, f y = if y = id then some found else none) :
    chain.findSome? f = some found := by
  cases hsome : chain.findSome? f with
  | none =>
    have hno := List.findSome?_eq_none_iff.mp hsome id hid
    rw [h id hid, if_pos rfl] at hno
    cases hno
  | some found' =>
    obtain ⟨y, hy, hfound⟩ := List.exists_of_findSome?_eq_some hsome
    rw [h y hy] at hfound
    exact (Option.ite_none_right_eq_some.mp hfound).2.symm

/-- A tree type is registered in two steps: it is one more type of the tuple, and its constructor is
one more action of the outermost scope, where none goes by its name. -/
theorem registerType_eq_ok {root : TupleId} (hid : s.rootOf id = root)
    (hroot : s.rootOf root = root) (hlive : s.tuple? root = some r) (htabled : r.Tabled)
    (hactions : r.actionsNamed name = []) (htree : type.isLeaf = false)
    (hrun : StoreM.registerType id name type s = .ok () s') :
    ∃ t t' r₁ r₂, s.tuple? id = some t ∧ t' = { t with types := t.types ++ [(name, type)] } ∧
      (s.putTuple id t').tuple? root = some r₁ ∧ r₁.Tabled ∧ r₁.actionsNamed name = [] ∧
        r₁.insertAction (.constructorFor name type) = .ok r₂ ∧
        s' = (s.putTuple id t').putTuple root r₂ := by
  obtain ⟨u, s₁, hregister, hrun⟩ := StoreM.bind_eq_ok.mp hrun
  obtain ⟨t, t', ht, hinsert, rfl⟩ := StoreM.update_eq_ok.mp hregister
  have hinserted : t' = { t with types := t.types ++ [(name, type)] } := by
    cases hinsert' : t.insertType name type with
    | error e => rw [hinsert'] at hinsert; cases hinsert
    | ok t'' =>
      rw [hinsert'] at hinsert
      cases hinsert
      exact Tuple.insertType_eq_ok hinsert'
  have hsame : ∀ y, (s.putTuple id t').rootOf y = s.rootOf y :=
    rootOf_putTuple ht (by rw [hinserted])
  -- the tables of the outermost scope are the same with one more type
  obtain ⟨r₁, hr₁, htabled₁, hactions₁⟩ : ∃ r₁, (s.putTuple id t').tuple? root = some r₁ ∧
      r₁.Tabled ∧ r₁.actionsNamed name = [] := by
    rw [tuple?_putTuple ht]
    by_cases hroot' : root = id
    · rw [hroot', ht] at hlive
      cases hlive
      subst hinserted
      exact ⟨_, if_pos hroot', { htabled with }, hactions⟩
    · exact ⟨r, (if_neg hroot').trans hlive, htabled, hactions⟩
  have hfree : (s.putTuple id t').action? root (Action.constructorFor name type).signature =
      none := by
    rw [Store.action?, hsame, hroot, hr₁]
    exact htabled₁.action?_eq_none hactions₁
  -- of the three ways on, for leaves, for constructors that are there and for others, it is the
  -- last
  rw [if_neg (by simp [htree])] at hrun
  change (if ((s.putTuple id t').action? _ _).isSome = true then pure () else tryCatch _ _ :
    StoreM Unit) _ = .ok () s' at hrun
  rw [hsame, hid, hfree, if_neg (by simp)] at hrun
  change EStateM.tryCatch _ _ _ = _ at hrun
  unfold EStateM.tryCatch at hrun
  cases haction : StoreM.registerAction root (.constructorFor name type) (s.putTuple id t') with
  | error e s₂ =>
    -- the type is forgotten, and the error remains
    rw [haction] at hrun
    obtain ⟨u, _, -, hforget⟩ := StoreM.bind_eq_ok.mp hrun
    cases hu : u.tuple? id with
    | none => rw [hu] at hforget; cases hforget
    | some t => rw [hu] at hforget; cases hforget
  | ok _ s₂ =>
    rw [haction] at hrun
    cases hrun
    obtain ⟨r', r₂, hr', hinsert', rfl⟩ := StoreM.update_eq_ok.mp haction
    obtain rfl := Option.some.inj (hr₁.symm.trans hr')
    refine ⟨t, t', r₁, r₂, ht, hinserted, hr₁, htabled₁, hactions₁, ?_, rfl⟩
    cases hinserted' : r₁.insertAction (.constructorFor name type) with
    | error e => rw [hinserted'] at hinsert'; cases hinsert'
    | ok t'' =>
      rw [hinserted'] at hinsert'
      cases hinsert'
      rfl

/-- A tree type is seen and can be constructed from an anchored scope once it is registered around
it under a name that no other type and no action is found by. -/
theorem Anchored.offers_registerType {out : Option TupleId} (hscope : s.Anchored scope out)
    (hid : id ∈ s.scopeChain scope)
    (htabled : ∀ r, s.tuple? (s.rootOf scope) = some r → r.Tabled)
    (htypes : s.lookupType scope name = none) (hactions : s.actionsNamed scope name = [])
    (htree : type.isLeaf = false) (hrun : StoreM.registerType id name type s = .ok () s') :
    s'.Offers scope name type := by
  obtain ⟨root, r, hlive, hroot, hsame⟩ := hscope.exists_root
  have hself : scope ∈ s.scopeChain scope := by
    obtain ⟨u, hu⟩ := hscope.live
    exact mem_scopeChain.mpr ⟨0, by rw [ancestor?, hu]; rfl⟩
  rw [hsame scope hself] at htabled
  rw [actionsNamed, hsame scope hself, hlive] at hactions
  obtain ⟨t, t', r₁, r₂, ht, ht', hr₁, htabled₁, hactions₁, hinsert, rfl⟩ :=
    registerType_eq_ok (hsame id hid) (hsame root hroot) hlive (htabled r hlive) hactions htree hrun
  have hr₂ := (Tuple.insertAction_eq_ok hinsert).2
  have hchain : ((s.putTuple id t').putTuple root r₂).scopeChain scope = s.scopeChain scope := by
    rw [scopeChain_putTuple hr₁ (by rw [hr₂]), scopeChain_putTuple ht (by rw [ht'])]
  constructor
  · -- in the chain, only the tuple with the new type has one of the name
    obtain ⟨hfree, -⟩ := Option.or_eq_none_iff.mp htypes
    rw [List.findSome?_eq_none_iff] at hfree
    have hlocal : ∀ y ∈ s.scopeChain scope,
        (((s.putTuple id t').putTuple root r₂).tuple? y).bind (·.localType? name) =
          if y = id then some type else none := by
      intro y hy
      have hold := hfree y hy
      have hnew : ((s.putTuple id t').tuple? y).bind (·.localType? name) =
          if y = id then some type else none := by
        rw [tuple?_putTuple ht]
        by_cases hyid : y = id
        · rw [hyid, ht, Option.bind_some, Tuple.localType?] at hold
          simp [hyid, ht', Tuple.localType?, List.lookup_append, hold]
        · rw [if_neg hyid, if_neg hyid, hold]
      rw [tuple?_putTuple hr₁]
      by_cases hyroot : y = root
      · rw [if_pos hyroot, ← hnew, hyroot, hr₁, hr₂]
        rfl
      · rw [if_neg hyroot, hnew]
    rw [lookupType, hchain, findSome?_eq_of_sole hid hlocal, Option.some_or]
  · have hkept : ((s.putTuple id t').putTuple root r₂).rootOf scope = root := by
      rw [rootOf_putTuple hr₁ (by rw [hr₂]), rootOf_putTuple ht (by rw [ht']), hsame scope hself]
    have hconstructor : (Action.constructorFor name type).name = name := rfl
    rw [actionsNamed, hkept, tuple?_putTuple hr₁, if_pos rfl]
    dsimp only
    rw [htabled₁.actionsNamed_insertAction hinsert, hactions₁, hconstructor, if_pos rfl,
      List.nil_append]

end Registration

end Store

end TupleLang
